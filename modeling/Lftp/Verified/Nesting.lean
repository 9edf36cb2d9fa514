import Mathlib.Logic.Basic

/-!
# Nested blocks

A trace of marks: a block is entered under a name and left, and between there are items.
`Nested` are the traces whose blocks are properly nested. On such a trace a stack that is
pushed to on entering and popped from on leaving never underflows and ends as it was
(`Nested.stackRun_eq`).
-/

namespace Lftp.Verified

variable {α β γ : Type}

inductive Mark (α β : Type)
  | enter (a : α)
  | exit
  | item (b : β)
deriving DecidableEq

/-- Every block that is entered is left, the inner before the outer. -/
inductive Nested : List (Mark α β) → Prop
  | nil : Nested []
  | item (b : β) {t : List (Mark α β)} (h : Nested t) : Nested (.item b :: t)
  | block (a : α) {s t : List (Mark α β)} (hs : Nested s) (ht : Nested t) :
      Nested (.enter a :: s ++ .exit :: t)

theorem Nested.append {s t : List (Mark α β)} (hs : Nested s) (ht : Nested t) :
    Nested (s ++ t) := by
  induction hs with
  | nil => exact ht
  | item b _ ih => exact .item b ih
  | block a hs _ _ ih =>
      have h := Nested.block a hs ih
      simpa using h

theorem Nested.flatten {ts : List (List (Mark α β))} (h : ∀ t ∈ ts, Nested t) :
    Nested ts.flatten := by
  induction ts with
  | nil => exact .nil
  | cons t ts ih =>
      rw [List.flatten_cons]
      exact (h t List.mem_cons_self).append (ih fun u hu => h u (List.mem_cons_of_mem t hu))

/-- A stack along a trace; `none` when there is nothing to pop. -/
def stackRun (push : List γ → α → γ) : List γ → List (Mark α β) → Option (List γ)
  | stack, [] => some stack
  | stack, .enter a :: t => stackRun push (push stack a :: stack) t
  | [], .exit :: _ => none
  | _ :: stack, .exit :: t => stackRun push stack t
  | stack, .item _ :: t => stackRun push stack t

variable {push : List γ → α → γ}

theorem Nested.stackRun_append {s : List (Mark α β)} (h : Nested s) (stack : List γ)
    (t : List (Mark α β)) : stackRun push stack (s ++ t) = stackRun push stack t := by
  induction h generalizing stack t with
  | nil => rfl
  | item b _ ih =>
      rw [List.cons_append, stackRun]
      exact ih stack t
  | block a _ _ ihBlock ihRest =>
      rw [List.append_assoc, List.cons_append, stackRun, ihBlock, List.cons_append, stackRun]
      exact ihRest stack t

/-- Nested blocks leave the stack as it was. -/
theorem Nested.stackRun_eq {s : List (Mark α β)} (h : Nested s) (stack : List γ) :
    stackRun push stack s = some stack := by
  have hRun : stackRun push stack (s ++ []) = stackRun push stack [] := h.stackRun_append stack []
  rw [List.append_nil] at hRun
  rw [hRun, stackRun]

end Lftp.Verified
