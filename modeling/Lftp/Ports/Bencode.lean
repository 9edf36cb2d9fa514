import Mathlib.Algebra.Group.Nat.Defs
import Mathlib.Algebra.Group.Int.Defs
import Mathlib.Data.List.Sort
import Lftp.Verified.Decimal
import Lftp.Verified.Assoc

/-!
# `BeNode`: the bencode tree, its packer and its parser

A translation of `Bencode.cc`. A dictionary is the listing of its `xmap` in
the map's own enumeration order; the packer sorts the keys, so that order never
shows. The parser's pair `(s, s_len)` is one list, and its out parameter
`*rest` is the second component of the result.

* `Encodes t w` is the format: what `w` must look like to be an encoding of
  `t`, dictionary keys strictly ascending.
* `encodes_pack` says the packer writes that format, `parse_encodes` that the
  parser reads it back, whatever bytes follow.
* `computeLength_eq` relates the separate length recursion to the packer.
-/

namespace Lftp.Ports.Bencode

open Lftp.Verified
open Lftp.Verified.Assoc

/-- `BeNode`. The first field of `dict` is the raw text the parser keeps in
`str`; a dictionary built in memory has an empty one. -/
inductive BeNode where
  | str (s : Bytes)
  | int (num : BitVec 64)
  | list (l : List BeNode)
  | dict (str : Bytes) (d : List (Bytes × BeNode))

namespace BeNode

/-- Induction over the tree, with the hypothesis for every child. -/
@[elab_as_elim, induction_eliminator]
theorem induct {P : BeNode → Prop} (str : ∀ s, P (.str s)) (int : ∀ n, P (.int n))
    (list : ∀ l, (∀ t ∈ l, P t) → P (.list l))
    (dict : ∀ raw d, (∀ e ∈ d, P e.2) → P (.dict raw d)) : ∀ t, P t
  | .str s => str s
  | .int n => int n
  | .list l => list l fun t _ht => induct str int list dict t
  | .dict raw d => dict raw d fun e _he => induct str int list dict e.2
termination_by t => sizeOf t
decreasing_by
  · have hsz := List.sizeOf_lt_of_mem _ht
    simp only [BeNode.list.sizeOf_spec]
    omega
  · have hsz := List.sizeOf_lt_of_mem _he
    have hval : sizeOf e.2 < sizeOf e := by
      cases e
      simp only [Prod.mk.sizeOf_spec]
      omega
    simp only [BeNode.dict.sizeOf_spec]
    omega

/-- Every dictionary of the tree lists each key once, as an `xmap` does. -/
inductive WellKeyed : BeNode → Prop
  | str (s : Bytes) : WellKeyed (.str s)
  | int (n : BitVec 64) : WellKeyed (.int n)
  | list {l : List BeNode} (items : ∀ t ∈ l, WellKeyed t) : WellKeyed (.list l)
  | dict {raw : Bytes} {d : List (Bytes × BeNode)} (distinct : (keys d).Nodup)
      (values : ∀ e ∈ d, WellKeyed e.2) : WellKeyed (.dict raw d)

/-- Equality of trees: dictionaries are compared by lookup, and the raw text
kept by the parser is not part of the tree. -/
inductive Same : BeNode → BeNode → Prop
  | str (s : Bytes) : Same (.str s) (.str s)
  | int (n : BitVec 64) : Same (.int n) (.int n)
  | list {l l' : List BeNode} (length : l.length = l'.length)
      (items : ∀ p ∈ l.zip l', Same p.1 p.2) : Same (.list l) (.list l')
  | dict {raw raw' : Bytes} {d d' : List (Bytes × BeNode)}
      (same_keys : ∀ k, (d.lookup k).isSome = (d'.lookup k).isSome)
      (values : ∀ k v v', d.lookup k = some v → d'.lookup k = some v' → Same v v') :
      Same (.dict raw d) (.dict raw' d')

end BeNode

open BeNode

/-! ## Packing -/

/-- `appendf("%d:",len)` followed by the bytes. -/
def packStr (s : Bytes) : Bytes := decimal s.length ++ ch ':' :: s

/-- `%lld`. -/
def formatLLD (num : BitVec 64) : Bytes :=
  if num.toInt < 0 then ch '-' :: decimal num.toInt.natAbs else decimal num.toInt.natAbs

/-- `memcmp` on the first `n` bytes. -/
def memcmp : Nat → Bytes → Bytes → Int
  | n + 1, x :: a, y :: b => if x = y then memcmp n a b else x.toNat - y.toNat
  | _, _, _ => 0

/-- `xstring::cmp`. -/
def cmp (a b : Bytes) : Int :=
  let cmp_res := memcmp (min a.length b.length) a b
  if cmp_res ≠ 0 then cmp_res
  else if a.length = b.length then 0 else a.length - b.length

/-- `keys.qsort(xstring_ptr_cmp)`. -/
def sortKeys (ks : List Bytes) : List Bytes :=
  ks.insertionSort fun a b => cmp a b ≤ 0

/-- `BeNode::PackDict`, on a dictionary whose values are packed already. -/
def packDict (d : List (Bytes × Bytes)) : Bytes :=
  (sortKeys (keys d)).flatMap fun key => packStr key ++ (d.lookup key).getD []

mutual

/-- `BeNode::Pack`. -/
def pack : BeNode → Bytes
  | .str s => packStr s
  | .int num => ch 'i' :: formatLLD num ++ [ch 'e']
  | .list l => ch 'l' :: packList l ++ [ch 'e']
  | .dict _ d => ch 'd' :: packDict (packValues d) ++ [ch 'e']

def packList : List BeNode → Bytes
  | [] => []
  | t :: l => pack t ++ packList l

def packValues : List (Bytes × BeNode) → List (Bytes × Bytes)
  | [] => []
  | (k, v) :: d => (k, pack v) :: packValues d

end

/-- The loop that counts the digits of a string's length, with its `':'`. -/
def strLength (s : Bytes) : Nat := 1 + s.length + countDigits s.length s.length

mutual

/-- `BeNode::ComputeLength`. -/
def computeLength : BeNode → Nat
  | .str s => strLength s
  | .int num => 1 + (formatLLD num).length + 1
  | .list l => 1 + computeLengthList l + 1
  | .dict _ d => 1 + computeLengthDict d + 1

def computeLengthList : List BeNode → Nat
  | [] => 0
  | t :: l => computeLength t + computeLengthList l

def computeLengthDict : List (Bytes × BeNode) → Nat
  | [] => 0
  | (k, v) :: d => strLength k + computeLength v + computeLengthDict d

end

/-! ## Parsing -/

/-- `while(s_len>1 && c_isdigit(*s)) { n=n*10+*s++-'0'; s_len--; }` -/
def intLoop (n : BitVec 64) : Bytes → BitVec 64 × Bytes
  | c :: c' :: s =>
    if isDigit c then intLoop (n * 10 + BitVec.ofNat 64 (digitVal c)) (c' :: s)
    else (n, c :: c' :: s)
  | s => (n, s)

/-- The case `'i'`, after the sign. -/
def parseDigits (neg : Bool) (s : Bytes) : Option BeNode × Nat :=
  match s with
  | c :: c' :: s' =>
    if isDigit c then
      if c = ch '0' ∧ c' ≠ ch 'e' then (none, s.length)
      else
        let (n, s) := intLoop (BitVec.ofNat 64 (digitVal c)) (c' :: s')
        match s with
        | [] => (none, 0)
        | x :: s' =>
          if x = ch 'e' then (some (.int (if neg then -n else n)), s'.length)
          else (none, s.length)
    else (none, s.length)
  | _ => (none, 0)

/-- The case `'i'`, after the letter. -/
def parseInt : Bytes → Option BeNode × Nat
  | [] => parseDigits false []
  | c :: s => if c = ch '-' then parseDigits true s else parseDigits false (c :: s)

/-- `while(s_len>0 && c_isdigit(*s)) { if(n>=s_len) ...; n=n*10+*s++-'0'; }`,
with `n` a 32-bit `int`; `none` is the return from inside the loop. -/
def lengthLoop (n : Int) : Bytes → Option (Int × Bytes)
  | [] => some (n, [])
  | c :: s =>
    if isDigit c then
      if n ≥ (c :: s).length then none
      else lengthLoop ((n * 10 + digitVal c).bmod (2 ^ 32)) s
    else some (n, c :: s)

/-- The `default` case. A negative `n` gets past `s_len<n`; the copy of that
many bytes cannot be allocated, which ends the program. -/
def parseStr : Bytes → Option BeNode × Nat
  | [] => (none, 0)
  | c :: s =>
    if isDigit c then
      match lengthLoop (digitVal c) s with
      | none => (none, 0)
      | some (_, []) => (none, 0)
      | some (n, x :: s) =>
        if x ≠ ch ':' then (none, s.length + 1)
        else if (s.length : Int) < n ∨ n < 0 then (none, 0)
        else (some (.str (s.take n.toNat)), s.length - n.toNat)
    else (none, s.length + 1)

mutual

/-- `BeNode::Parse`; the first argument bounds the depth of the recursion. -/
def parseFuel : Nat → Bytes → Option BeNode × Nat
  | 0, _ => (none, 0)
  | fuel + 1, s =>
    if s.length < 2 then (none, 0)
    else match s with
      | [] => (none, 0)
      | c :: s' =>
        if c = ch 'i' then parseInt s'
        else if c = ch 'l' then parseList fuel s' []
        else if c = ch 'd' then parseDict fuel s s' []
        else parseStr s

/-- The loop of the case `'l'`; `a` holds the items read so far. -/
def parseList : Nat → Bytes → List BeNode → Option BeNode × Nat
  | 0, _, _ => (none, 0)
  | fuel + 1, s, a =>
    if 1 < s.length ∧ s.head? ≠ some (ch 'e') then
      match parseFuel fuel s with
      | (none, rest1) => (none, rest1)
      | (some n, rest1) => parseList fuel (s.drop (s.length - rest1)) (a ++ [n])
    else match s with
      | [] => (none, 0)
      | c :: s' => if c = ch 'e' then (some (.list a), s'.length) else (none, s.length)

/-- The loop of the case `'d'`; `dBegin` is the text from `d_begin` on. -/
def parseDict : Nat → Bytes → Bytes → List (Bytes × BeNode) → Option BeNode × Nat
  | 0, _, _, _ => (none, 0)
  | fuel + 1, dBegin, s, map =>
    if 1 < s.length ∧ s.head? ≠ some (ch 'e') then
      match parseFuel fuel s with
      | (none, rest1) => (none, rest1)
      | (some (.str key), rest1) =>
        let s := s.drop (s.length - rest1)
        match parseFuel fuel s with
        | (none, rest1) => (none, rest1)
        | (some v, rest1) =>
          parseDict fuel dBegin (s.drop (s.length - rest1)) (add key v map)
      | (some _, _) => (none, s.length)
    else match s with
      | [] => (none, 0)
      | c :: s' =>
        if c = ch 'e' then
          (some (.dict (dBegin.take (dBegin.length - s'.length)) map), s'.length)
        else (none, s.length)

end

/-- `BeNode::Parse`. -/
def parse (s : Bytes) : Option BeNode × Nat := parseFuel (2 * s.length) s

/-! ## The order of the keys -/

theorem cmp_cons_self (x : UInt8) (a b : Bytes) : cmp (x :: a) (x :: b) = cmp a b := by
  have hmin : min (a.length + 1) (b.length + 1) = min a.length b.length + 1 := by omega
  simp only [cmp, List.length_cons, hmin, memcmp, if_true]
  split_ifs <;> omega

theorem cmp_cons_of_ne {x y : UInt8} (a b : Bytes) (h : x ≠ y) :
    cmp (x :: a) (y :: b) = x.toNat - y.toNat := by
  have hmin : min (a.length + 1) (b.length + 1) = min a.length b.length + 1 := by omega
  have hne : x.toNat ≠ y.toNat := fun he => h (UInt8.toNat_inj.mp he)
  simp only [cmp, List.length_cons, hmin, memcmp, if_neg h]
  rw [if_pos (by omega)]

/-- `xstring::cmp` is the lexicographic order of the bytes. -/
theorem cmp_le_zero_iff (a b : Bytes) : cmp a b ≤ 0 ↔ a ≤ b := by
  induction a generalizing b with
  | nil =>
      have hle : cmp [] b ≤ 0 := by
        simp only [cmp, List.length_nil, Nat.zero_min, memcmp]
        split_ifs <;> simp
      simp [hle]
  | cons x a ih =>
      cases b with
      | nil =>
          have hgt : ¬ cmp (x :: a) [] ≤ 0 := by
            simp [cmp, memcmp]
          simp [hgt]
      | cons y b =>
          rw [List.cons_le_cons_iff]
          by_cases h : x = y
          · subst h
            rw [cmp_cons_self, ih]
            simp [UInt8.lt_irrefl]
          · rw [cmp_cons_of_ne a b h, UInt8.lt_iff_toNat_lt]
            have hne : x.toNat ≠ y.toNat := fun he => h (UInt8.toNat_inj.mp he)
            simp only [h, false_and, or_false]
            omega

instance : IsTrans Bytes (· ≤ ·) := ⟨fun _ _ _ => List.le_trans⟩

theorem sortKeys_eq (ks : List Bytes) : sortKeys ks = ks.insertionSort (· ≤ ·) := by
  have hrel : (fun a b : Bytes => cmp a b ≤ 0) = (· ≤ ·) := by
    funext a b
    exact propext (cmp_le_zero_iff a b)
  unfold sortKeys
  congr

theorem perm_sortKeys (ks : List Bytes) : (sortKeys ks).Perm ks :=
  List.perm_insertionSort _ ks

/-- Distinct keys are listed in strictly ascending order. -/
theorem pairwise_sortKeys {ks : List Bytes} (h : ks.Nodup) :
    (sortKeys ks).Pairwise (· < ·) := by
  have hnd : (sortKeys ks).Nodup := (perm_sortKeys ks).nodup_iff.mpr h
  have hle : (sortKeys ks).Pairwise (· ≤ ·) := by
    rw [sortKeys_eq]
    exact List.pairwise_insertionSort _ ks
  exact hle.imp₂ (fun _ _ => Std.lt_of_le_of_ne) hnd

/-! ## The packer in the source's shape -/

theorem packList_eq (l : List BeNode) : packList l = l.flatMap pack := by
  induction l with
  | nil => rfl
  | cons t l ih => rw [packList, ih, List.flatMap_cons]

theorem packValues_eq (d : List (Bytes × BeNode)) :
    packValues d = d.map fun e => (e.1, pack e.2) := by
  induction d with
  | nil => rfl
  | cons e d ih => rw [packValues, ih, List.map_cons]

/-- `PackDict` packs what `lookup` finds under each of the sorted keys. -/
theorem packDict_packValues (d : List (Bytes × BeNode)) :
    packDict (packValues d) =
      (sortKeys (keys d)).flatMap fun key =>
        packStr key ++ ((d.lookup key).map pack).getD [] := by
  simp only [packDict, packValues_eq, keys_map, lookup_map]

/-! ## The format -/

/-- `w` is a bencoding of `t`: what a reader of the format may rely on. -/
inductive Encodes : BeNode → Bytes → Prop
  | str (s : Bytes) : Encodes (.str s) (packStr s)
  | int (n : BitVec 64) : Encodes (.int n) (ch 'i' :: formatLLD n ++ [ch 'e'])
  | list {es : List (BeNode × Bytes)} (items : ∀ e ∈ es, Encodes e.1 e.2) :
      Encodes (.list (es.map Prod.fst)) (ch 'l' :: es.flatMap Prod.snd ++ [ch 'e'])
  | dict {raw : Bytes} {d : List (Bytes × BeNode)} {es : List (Bytes × BeNode × Bytes)}
      (entries : (es.map fun e => (e.1, e.2.1)).Perm d)
      (ascending : (keys es).Pairwise (· < ·))
      (values : ∀ e ∈ es, Encodes e.2.1 e.2.2) :
      Encodes (.dict raw d)
        (ch 'd' :: es.flatMap (fun e => packStr e.1 ++ e.2.2) ++ [ch 'e'])

/-- The packer writes the format. -/
theorem encodes_pack {t : BeNode} (hKeys : WellKeyed t) : Encodes t (pack t) := by
  induction t with
  | str s => exact .str s
  | int n => exact .int n
  | list l ih =>
      cases hKeys with
      | list hItems =>
          have h := @Encodes.list (l.map fun t => (t, pack t)) (by
            intro e he
            obtain ⟨t, ht, rfl⟩ := List.mem_map.mp he
            exact ih t ht (hItems t ht))
          simpa [pack, packList_eq, Function.comp_def, List.flatMap_map] using h
  | dict raw d ih =>
      cases hKeys with
      | dict hDistinct hValues =>
          obtain ⟨d', hPerm, hSorted, hLook⟩ :=
            perm_of_perm_keys hDistinct (perm_sortKeys (keys d))
          have hText : packDict (packValues d) =
              (d'.map fun e => (e.1, e.2, pack e.2)).flatMap
                fun e => packStr e.1 ++ e.2.2 := by
            rw [packDict_packValues, ← hSorted, keys, List.flatMap_map, List.flatMap_map]
            refine List.flatMap_congr fun e he => ?_
            rw [hLook e he, Option.map_some, Option.getD_some]
          rw [pack, hText]
          refine .dict ?_ ?_ ?_
          · simpa [Function.comp_def] using hPerm
          · rw [keys_map (fun v => (v, pack v)), hSorted]
            exact pairwise_sortKeys hDistinct
          · intro e he
            obtain ⟨e', he', rfl⟩ := List.mem_map.mp he
            exact ih e' (hPerm.subset he') (hValues e' (hPerm.subset he'))

/-! ## The length computation -/

theorem strLength_eq (s : Bytes) : strLength s = (packStr s).length := by
  rw [strLength, countDigits_eq le_rfl, packStr, List.length_append, List.length_cons]
  omega

theorem computeLengthList_eq {l : List BeNode}
    (h : ∀ t ∈ l, computeLength t = (pack t).length) :
    computeLengthList l = (packList l).length := by
  induction l with
  | nil => rfl
  | cons t l ih =>
      rw [computeLengthList, packList, List.length_append, h t List.mem_cons_self,
        ih fun t ht => h t (List.mem_cons_of_mem _ ht)]

/-- The length recursion runs in listing order, the packer in key order. -/
theorem computeLengthDict_eq {d : List (Bytes × BeNode)} (hDistinct : (keys d).Nodup)
    (h : ∀ e ∈ d, computeLength e.2 = (pack e.2).length) :
    computeLengthDict d = (packDict (packValues d)).length := by
  have hSum : computeLengthDict d =
      (d.map fun e => strLength e.1 + (pack e.2).length).sum := by
    clear hDistinct
    induction d with
    | nil => rfl
    | cons e d ih =>
        rw [computeLengthDict, List.map_cons, List.sum_cons, h e List.mem_cons_self,
          ih fun e he => h e (List.mem_cons_of_mem _ he)]
  obtain ⟨d', hPerm, hSorted, hLook⟩ :=
    perm_of_perm_keys hDistinct (perm_sortKeys (keys d))
  rw [hSum, packDict_packValues, List.length_flatMap, ← hSorted, keys, List.map_map,
    ← (hPerm.map _).sum_nat]
  refine congrArg List.sum (List.map_congr_left fun e he => ?_)
  simp only [Function.comp_apply, hLook e he, Option.map_some, Option.getD_some,
    List.length_append, strLength_eq]

theorem computeLength_eq {t : BeNode} (hKeys : WellKeyed t) :
    computeLength t = (pack t).length := by
  induction t with
  | str s => exact strLength_eq s
  | int n =>
      simp only [computeLength, pack, List.length_append, List.length_cons, List.length_nil]
      omega
  | list l ih =>
      cases hKeys with
      | list hItems =>
          have hl := computeLengthList_eq fun t ht => ih t ht (hItems t ht)
          simp only [computeLength, pack, List.length_append, List.length_cons,
            List.length_nil, hl]
          omega
  | dict raw d ih =>
      cases hKeys with
      | dict hDistinct hValues =>
          have hd := computeLengthDict_eq hDistinct fun e he => ih e he (hValues e he)
          simp only [computeLength, pack, List.length_append, List.length_cons,
            List.length_nil, hd]
          omega

/-! ## Reading numbers back -/

theorem isDigit_colon : isDigit (ch ':') = false := by decide

theorem isDigit_e : isDigit (ch 'e') = false := by decide

/-- The length loop reads a numeral whose value fits the bytes that follow. -/
theorem lengthLoop_append {ds s : Bytes} {n : Nat} (hDigits : ∀ c ∈ ds, isDigit c = true)
    (hFits : horner n ds ≤ s.length) (hSmall : horner n ds < 2 ^ 31) :
    lengthLoop n (ds ++ ch ':' :: s) = some ((horner n ds : Int), ch ':' :: s) := by
  induction ds generalizing n with
  | nil => simp [lengthLoop, isDigit_colon]
  | cons c ds ih =>
      rw [horner_cons] at hFits hSmall
      have hNext := le_horner (n * 10 + digitVal c) ds
      have hStep : ((n : Int) * 10 + digitVal c).bmod (2 ^ 32) =
          ((n * 10 + digitVal c : Nat) : Int) := by
        rw [Int.bmod_eq_of_le (by omega) (by omega)]
        rfl
      have hRoom : ¬ (n : Int) ≥ (c :: (ds ++ ch ':' :: s)).length := by
        simp only [List.length_cons, List.length_append]
        omega
      rw [List.cons_append, lengthLoop, if_pos (hDigits c List.mem_cons_self),
        if_neg hRoom, hStep, horner_cons]
      exact ih (fun c hc => hDigits c (List.mem_cons_of_mem _ hc)) hFits hSmall

theorem parseStr_packStr {s : Bytes} (hLen : s.length < 2 ^ 31) (r : Bytes) :
    parseStr (packStr s ++ r) = (some (.str s), r.length) := by
  obtain ⟨c, ds, hcs⟩ := List.exists_cons_of_ne_nil (decimal_ne_nil s.length)
  have hDigits := isDigit_of_mem_decimal s.length
  have hVal := horner_decimal s.length
  rw [hcs, horner_cons, Nat.zero_mul, Nat.zero_add] at hVal
  rw [hcs] at hDigits
  have hLoop : lengthLoop (digitVal c) (ds ++ ch ':' :: (s ++ r)) =
      some ((s.length : Int), ch ':' :: (s ++ r)) := by
    have hFits : horner (digitVal c) ds ≤ (s ++ r).length := by
      rw [hVal, List.length_append]
      omega
    rw [lengthLoop_append (fun c hc => hDigits c (List.mem_cons_of_mem _ hc)) hFits
      (hVal ▸ hLen), hVal]
  have hText : packStr s ++ r = c :: (ds ++ ch ':' :: (s ++ r)) := by
    simp [packStr, hcs]
  have hEnough : ¬ (((s ++ r).length : Int) < s.length ∨ (s.length : Int) < 0) := by
    rw [List.length_append]
    omega
  rw [hText, parseStr, if_pos (hDigits c List.mem_cons_self), hLoop]
  simp only [ne_eq, not_true_eq_false, if_false, if_neg hEnough]
  simp

/-- The integer loop reads a numeral up to the closing `'e'`. -/
theorem intLoop_append {ds : Bytes} (m : Nat) (hDigits : ∀ c ∈ ds, isDigit c = true)
    (s : Bytes) :
    intLoop (BitVec.ofNat 64 m) (ds ++ ch 'e' :: s) =
      (BitVec.ofNat 64 (horner m ds), ch 'e' :: s) := by
  induction ds generalizing m with
  | nil => cases s <;> simp [intLoop, isDigit_e]
  | cons c ds ih =>
      have hNext : BitVec.ofNat 64 m * 10 + BitVec.ofNat 64 (digitVal c) =
          BitVec.ofNat 64 (m * 10 + digitVal c) := by
        rw [BitVec.ofNat_add, BitVec.ofNat_mul]
        rfl
      have hUnfold : intLoop (BitVec.ofNat 64 m) (c :: (ds ++ ch 'e' :: s)) =
          intLoop (BitVec.ofNat 64 m * 10 + BitVec.ofNat 64 (digitVal c))
            (ds ++ ch 'e' :: s) := by
        cases ds <;> simp [intLoop, hDigits c List.mem_cons_self]
      rw [List.cons_append, hUnfold, hNext, horner_cons]
      exact ih _ fun c hc => hDigits c (List.mem_cons_of_mem _ hc)

theorem parseDigits_decimal (neg : Bool) (m : Nat) (r : Bytes) :
    parseDigits neg (decimal m ++ ch 'e' :: r) =
      (some (.int (if neg then -BitVec.ofNat 64 m else BitVec.ofNat 64 m)),
        r.length) := by
  obtain ⟨c, ds, hcs⟩ := List.exists_cons_of_ne_nil (decimal_ne_nil m)
  have hDigits := isDigit_of_mem_decimal m
  have hVal := horner_decimal m
  rw [hcs, horner_cons, Nat.zero_mul, Nat.zero_add] at hVal
  rw [hcs] at hDigits
  have hLoop := intLoop_append (digitVal c)
    (fun c hc => hDigits c (List.mem_cons_of_mem _ hc)) r
  rw [hVal] at hLoop
  -- The second byte read by the test for a leading zero.
  obtain ⟨c', s', hs'⟩ : ∃ c' s', ds ++ ch 'e' :: r = c' :: s' := by
    cases ds <;> simp
  have hZero : ¬ (c = ch '0' ∧ c' ≠ ch 'e') := by
    rintro ⟨rfl, hne⟩
    have hm : m = 0 := eq_zero_of_head_decimal (s := ds) (by rw [hcs]; rfl)
    rw [hm, decimal_of_lt (by decide), List.cons.injEq] at hcs
    rw [← hcs.2, List.nil_append, List.cons.injEq] at hs'
    exact hne hs'.1.symm
  rw [hcs, List.cons_append, hs', parseDigits, if_pos (hDigits c List.mem_cons_self),
    if_neg hZero, ← hs', hLoop]
  simp

theorem parseInt_formatLLD (n : BitVec 64) (r : Bytes) :
    parseInt (formatLLD n ++ ch 'e' :: r) = (some (.int n), r.length) := by
  by_cases hNeg : n.toInt < 0
  · have hVal : -BitVec.ofNat 64 n.toInt.natAbs = n := by
      rw [← BitVec.ofInt_natCast, ← BitVec.ofInt_neg, Int.ofNat_natAbs_of_nonpos hNeg.le,
        Int.neg_neg, BitVec.ofInt_toInt]
    rw [formatLLD, if_pos hNeg, List.cons_append, parseInt, if_pos rfl,
      parseDigits_decimal, if_pos rfl, hVal]
  · have hVal : BitVec.ofNat 64 n.toInt.natAbs = n := by
      rw [← BitVec.ofInt_natCast, Int.natAbs_of_nonneg (by omega), BitVec.ofInt_toInt]
    obtain ⟨c, ds, hcs⟩ := List.exists_cons_of_ne_nil (decimal_ne_nil n.toInt.natAbs)
    have hMinus : c ≠ ch '-' := by
      rintro rfl
      have hDigit := isDigit_of_mem_decimal n.toInt.natAbs
      rw [hcs] at hDigit
      exact absurd (hDigit (ch '-') List.mem_cons_self) (by decide)
    have hSkip : parseInt (decimal n.toInt.natAbs ++ ch 'e' :: r) =
        parseDigits false (decimal n.toInt.natAbs ++ ch 'e' :: r) := by
      rw [hcs, List.cons_append, parseInt, if_neg hMinus]
    rw [formatLLD, if_neg hNeg, hSkip, parseDigits_decimal, if_neg (by simp), hVal]

/-! ## Reading trees back -/

theorem not_length_lt_two {s : Bytes} (hLen : s ≠ []) (c : UInt8) :
    ¬ (c :: s).length < 2 := by
  have hPos := List.length_pos_of_ne_nil hLen
  rw [List.length_cons]
  omega

theorem parseFuel_i (fuel : Nat) {s : Bytes} (hLen : s ≠ []) :
    parseFuel (fuel + 1) (ch 'i' :: s) = parseInt s := by
  rw [parseFuel.eq_def]
  simp only [if_neg (not_length_lt_two hLen _), if_true]

theorem parseFuel_l (fuel : Nat) {s : Bytes} (hLen : s ≠ []) :
    parseFuel (fuel + 1) (ch 'l' :: s) = parseList fuel s [] := by
  rw [parseFuel.eq_def]
  simp only [if_neg (not_length_lt_two hLen _), if_neg (show ch 'l' ≠ ch 'i' by decide),
    if_true]

theorem parseFuel_d (fuel : Nat) {s : Bytes} (hLen : s ≠ []) :
    parseFuel (fuel + 1) (ch 'd' :: s) = parseDict fuel (ch 'd' :: s) s [] := by
  rw [parseFuel.eq_def]
  simp only [if_neg (not_length_lt_two hLen _), if_neg (show ch 'd' ≠ ch 'i' by decide),
    if_neg (show ch 'd' ≠ ch 'l' by decide), if_true]

/-- Neither an integer, a list nor a dictionary: `Parse` reads a string. -/
theorem parseFuel_digit (fuel : Nat) {c : UInt8} {s : Bytes} (hLen : s ≠ [])
    (hDigit : isDigit c = true) :
    parseFuel (fuel + 1) (c :: s) = parseStr (c :: s) := by
  have hLetter : ∀ x, isDigit x = false → c ≠ x := by
    rintro x hx rfl
    rw [hDigit] at hx
    cases hx
  rw [parseFuel.eq_def]
  simp only [if_neg (not_length_lt_two hLen _), if_neg (hLetter (ch 'i') (by decide)),
    if_neg (hLetter (ch 'l') (by decide)), if_neg (hLetter (ch 'd') (by decide))]

/-- One round of the loop over the items of a list. -/
theorem parseList_item {fuel : Nat} {s : Bytes} {n : BeNode} {rest1 : Nat}
    (hGuard : 1 < s.length ∧ s.head? ≠ some (ch 'e'))
    (hItem : parseFuel fuel s = (some n, rest1)) (a : List BeNode) :
    parseList (fuel + 1) s a = parseList fuel (s.drop (s.length - rest1)) (a ++ [n]) := by
  rw [parseList.eq_def]
  simp only [if_pos hGuard, hItem]

/-- One round of the loop over the entries of a dictionary. -/
theorem parseDict_entry {fuel : Nat} {s key : Bytes} {v : BeNode} {rest1 rest2 : Nat}
    (hGuard : 1 < s.length ∧ s.head? ≠ some (ch 'e'))
    (hKey : parseFuel fuel s = (some (.str key), rest1))
    (hValue : parseFuel fuel (s.drop (s.length - rest1)) = (some v, rest2))
    (dBegin : Bytes) (map : List (Bytes × BeNode)) :
    parseDict (fuel + 1) dBegin s map =
      parseDict fuel dBegin ((s.drop (s.length - rest1)).drop
        ((s.drop (s.length - rest1)).length - rest2)) (add key v map) := by
  rw [parseDict.eq_def]
  simp only [if_pos hGuard, hKey, hValue]

/-- An encoding has two bytes at least, and does not start like the end of a
list: the loops of the parser enter it. -/
def Enters (w : Bytes) : Prop := 2 ≤ w.length ∧ w.head? ≠ some (ch 'e')

theorem Enters.guard {w : Bytes} (h : Enters w) (s : Bytes) :
    1 < (w ++ s).length ∧ (w ++ s).head? ≠ some (ch 'e') := by
  obtain ⟨hLen, hHead⟩ := h
  obtain ⟨c, w, rfl⟩ : ∃ c w', w = c :: w' := by
    cases w with
    | nil => simp at hLen
    | cons c w => exact ⟨c, w, rfl⟩
  refine ⟨?_, by simpa using hHead⟩
  rw [List.length_append]
  omega

theorem head_packStr (s : Bytes) : ∃ c w, packStr s = c :: w ∧ isDigit c = true := by
  obtain ⟨c, ds, hcs⟩ := List.exists_cons_of_ne_nil (decimal_ne_nil s.length)
  refine ⟨c, ds ++ ch ':' :: s, by simp [packStr, hcs], ?_⟩
  exact isDigit_of_mem_decimal s.length c (hcs ▸ List.mem_cons_self)

theorem two_le_length_packStr (s : Bytes) : 2 ≤ (packStr s).length := by
  have hPos := List.length_pos_of_ne_nil (decimal_ne_nil s.length)
  simp only [packStr, List.length_append, List.length_cons]
  omega

theorem enters_packStr (s : Bytes) : Enters (packStr s) := by
  obtain ⟨c, w, hw, hDigit⟩ := head_packStr s
  refine ⟨two_le_length_packStr s, ?_⟩
  rw [hw, List.head?_cons, ne_eq, Option.some.injEq]
  rintro rfl
  exact absurd hDigit (by decide)

theorem Encodes.enters {t : BeNode} {w : Bytes} (h : Encodes t w) : Enters w := by
  cases h with
  | str s => exact enters_packStr s
  | _ => exact ⟨by simp, by simp; decide⟩

/-- The parser reads `w` as a tree equal to `t` and stops right after it. -/
def Reads (t : BeNode) (w : Bytes) : Prop :=
  ∀ fuel, w.length ≤ fuel → ∀ r : Bytes,
    ∃ t', parseFuel fuel (w ++ r) = (some t', r.length) ∧ Same t t'

theorem parseFuel_packStr {s : Bytes} (hLen : s.length < 2 ^ 31) (fuel : Nat)
    (hFuel : 0 < fuel) (r : Bytes) :
    parseFuel fuel (packStr s ++ r) = (some (.str s), r.length) := by
  obtain ⟨fuel, rfl⟩ := Nat.exists_eq_add_one_of_ne_zero hFuel.ne'
  obtain ⟨c, w, hw, hDigit⟩ := head_packStr s
  have hTail : w ++ r ≠ [] := by
    have hTwo := two_le_length_packStr s
    rw [hw, List.length_cons] at hTwo
    exact List.append_ne_nil_of_left_ne_nil (List.ne_nil_of_length_pos (by omega)) r
  rw [← parseStr_packStr hLen r, hw, List.cons_append, parseFuel_digit fuel hTail hDigit]

theorem drop_rest (w s : Bytes) : (w ++ s).drop ((w ++ s).length - s.length) = s := by
  simp

/-- The loop over the items of a list; the induction is on the items left. -/
theorem parseList_append {es : List (BeNode × Bytes)}
    (hEnters : ∀ e ∈ es, Enters e.2) (hReads : ∀ e ∈ es, Reads e.1 e.2) (fuel : Nat)
    (hFuel : (es.flatMap Prod.snd).length < fuel) (a : List BeNode) (r : Bytes) :
    ∃ l', l'.length = es.length ∧
      (∀ p ∈ (es.map Prod.fst).zip l', Same p.1 p.2) ∧
      parseList fuel (es.flatMap Prod.snd ++ ch 'e' :: r) a =
        (some (.list (a ++ l')), r.length) := by
  induction es generalizing fuel a with
  | nil =>
      obtain ⟨fuel, rfl⟩ := Nat.exists_eq_add_one_of_ne_zero (Nat.ne_zero_of_lt hFuel)
      exact ⟨[], rfl, by simp, by simp [parseList]⟩
  | cons e es ih =>
      obtain ⟨fuel, rfl⟩ := Nat.exists_eq_add_one_of_ne_zero (Nat.ne_zero_of_lt hFuel)
      have hTwo := (hEnters e List.mem_cons_self).1
      rw [List.flatMap_cons, List.length_append] at hFuel
      obtain ⟨t', hParse, hSame⟩ := hReads e List.mem_cons_self fuel (by omega)
        (es.flatMap Prod.snd ++ ch 'e' :: r)
      obtain ⟨l', hLen, hItems, hRest⟩ := ih
        (fun e he => hEnters e (List.mem_cons_of_mem _ he))
        (fun e he => hReads e (List.mem_cons_of_mem _ he)) fuel
        (by omega) (a ++ [t'])
      refine ⟨t' :: l', by simp [hLen], ?_, ?_⟩
      · intro p hp
        rw [List.map_cons, List.zip_cons_cons, List.mem_cons] at hp
        rcases hp with rfl | hp
        · exact hSame
        · exact hItems p hp
      · rw [List.flatMap_cons, List.append_assoc,
          parseList_item ((hEnters e List.mem_cons_self).guard _) hParse, drop_rest, hRest,
          List.append_assoc, List.singleton_append]

/-- The loop over the entries of a dictionary, in the order of the text. -/
theorem parseDict_append {es : List (Bytes × BeNode × Bytes)}
    (hKeys : ∀ e ∈ es, e.1.length < 2 ^ 31) (hEnters : ∀ e ∈ es, Enters e.2.2)
    (hReads : ∀ e ∈ es, Reads e.2.1 e.2.2) (fuel : Nat)
    (hFuel : (es.flatMap fun e => packStr e.1 ++ e.2.2).length < fuel)
    (map : List (Bytes × BeNode)) (hDistinct : (keys map ++ keys es).Nodup)
    (dBegin r : Bytes) :
    ∃ raw, ∃ es' : List (Bytes × BeNode × BeNode),
      es'.map (fun e => (e.1, e.2.1)) = es.map (fun e => (e.1, e.2.1)) ∧
      (∀ e ∈ es', Same e.2.1 e.2.2) ∧
      parseDict fuel dBegin (es.flatMap (fun e => packStr e.1 ++ e.2.2) ++ ch 'e' :: r) map =
        (some (.dict raw (map ++ es'.map fun e => (e.1, e.2.2))), r.length) := by
  induction es generalizing fuel map with
  | nil =>
      obtain ⟨fuel, rfl⟩ := Nat.exists_eq_add_one_of_ne_zero (Nat.ne_zero_of_lt hFuel)
      exact ⟨_, [], rfl, by simp, by simp [parseDict]; rfl⟩
  | cons e es ih =>
      obtain ⟨fuel, rfl⟩ := Nat.exists_eq_add_one_of_ne_zero (Nat.ne_zero_of_lt hFuel)
      have hTwo := (hEnters e List.mem_cons_self).1
      have hTwoKey := two_le_length_packStr e.1
      rw [List.flatMap_cons, List.length_append, List.length_append] at hFuel
      have hKey := parseFuel_packStr (hKeys e List.mem_cons_self) fuel (by omega)
        (e.2.2 ++ (es.flatMap (fun e => packStr e.1 ++ e.2.2) ++ ch 'e' :: r))
      obtain ⟨v', hParse, hSame⟩ := hReads e List.mem_cons_self fuel (by omega)
        (es.flatMap (fun e => packStr e.1 ++ e.2.2) ++ ch 'e' :: r)
      have hFresh : e.1 ∉ keys map := by
        intro hmem
        exact (List.nodup_append.mp hDistinct).2.2 e.1 hmem e.1 (by simp) rfl
      obtain ⟨raw, es', hEntries, hValues, hRest⟩ := ih
        (fun e he => hKeys e (List.mem_cons_of_mem _ he))
        (fun e he => hEnters e (List.mem_cons_of_mem _ he))
        (fun e he => hReads e (List.mem_cons_of_mem _ he)) fuel
        (by omega) (map ++ [(e.1, v')]) (by simpa using hDistinct)
      refine ⟨raw, (e.1, e.2.1, v') :: es', by simp [hEntries], ?_, ?_⟩
      · intro e'' he
        rcases List.mem_cons.mp he with rfl | he
        · exact hSame
        · exact hValues e'' he
      · rw [List.flatMap_cons, List.append_assoc, List.append_assoc,
          parseDict_entry ((enters_packStr e.1).guard _) hKey
            (by rw [drop_rest]; exact hParse),
          drop_rest, drop_rest, add_of_notMem v' hFresh, hRest]
        simp

theorem length_le_flatMap {α : Type} (f : α → Bytes) {a : α} {l : List α} (h : a ∈ l) :
    (f a).length ≤ (l.flatMap f).length := by
  obtain ⟨l₁, l₂, rfl⟩ := List.append_of_mem h
  simp only [List.flatMap_append, List.flatMap_cons, List.length_append]
  omega

/-- Two dictionaries whose entries match key by key are the same, whatever the
order of the listings. -/
theorem same_dict {raw raw' : Bytes} {d : List (Bytes × BeNode)}
    {es : List (Bytes × BeNode × BeNode)} (hDistinct : (keys es).Nodup)
    (hSame : ∀ e ∈ es, Same e.2.1 e.2.2)
    (hPerm : (es.map fun e => (e.1, e.2.1)).Perm d) :
    Same (.dict raw d) (.dict raw' (es.map fun e => (e.1, e.2.2))) := by
  have hKeys : keys (es.map fun e => (e.1, e.2.1)) = keys es :=
    keys_map Prod.fst es
  have hKeys' : keys (es.map fun e => (e.1, e.2.2)) = keys es :=
    keys_map Prod.snd es
  have hKeysPerm : (keys es).Perm (keys d) := hKeys ▸ hPerm.map Prod.fst
  have hDistinct_d : (keys d).Nodup := hKeysPerm.nodup_iff.mp hDistinct
  refine .dict ?_ ?_
  · intro k
    rw [Bool.eq_iff_iff, Option.isSome_iff_ne_none, Option.isSome_iff_ne_none, ne_eq,
      ne_eq, lookup_eq_none_iff, lookup_eq_none_iff, hKeys', hKeysPerm.mem_iff]
  · intro k v v' hv hv'
    rw [lookup_eq_some_iff hDistinct_d, ← hPerm.mem_iff, List.mem_map] at hv
    rw [lookup_eq_some_iff (hKeys'.symm ▸ hDistinct), List.mem_map] at hv'
    obtain ⟨e, he, hek⟩ := hv
    obtain ⟨e', he', hek'⟩ := hv'
    rw [Prod.mk.injEq] at hek hek'
    have heq : e = e' := List.inj_on_of_nodup_map hDistinct he he' (hek.1.trans hek'.1.symm)
    rw [← hek.2, ← hek'.2, ← heq]
    exact hSame e he

/-- The parser reads the format. -/
theorem reads_of_encodes {t : BeNode} {w : Bytes} (h : Encodes t w)
    (hLen : w.length < 2 ^ 31) : Reads t w := by
  induction h with
  | str s =>
      intro fuel hFuel r
      have hTwo := two_le_length_packStr s
      have hShort : s.length ≤ (packStr s).length := by
        simp only [packStr, List.length_append, List.length_cons]
        omega
      exact ⟨.str s, parseFuel_packStr (by omega) fuel (by omega) r, .str s⟩
  | int n =>
      intro fuel hFuel r
      obtain ⟨fuel, rfl⟩ : ∃ f, fuel = f + 1 :=
        Nat.exists_eq_add_one_of_ne_zero (by rintro rfl; simp at hFuel)
      refine ⟨.int n, ?_, .int n⟩
      rw [List.append_assoc, List.cons_append, parseFuel_i _ (by simp)]
      exact parseInt_formatLLD n r
  | @list es items ih =>
      have hItem : ∀ e ∈ es, Reads e.1 e.2 := fun e he => ih e he (by
        have hle := length_le_flatMap Prod.snd he
        simp only [List.length_append, List.length_cons] at hLen
        omega)
      intro fuel hFuel r
      obtain ⟨fuel, rfl⟩ : ∃ f, fuel = f + 1 :=
        Nat.exists_eq_add_one_of_ne_zero (by rintro rfl; simp at hFuel)
      obtain ⟨l', hLen', hSame, hParse⟩ := parseList_append
        (fun e he => (items e he).enters) hItem fuel
        (by simp only [List.length_append, List.length_cons] at hFuel; omega) [] r
      refine ⟨.list l', ?_, .list (by simp [hLen']) hSame⟩
      rw [List.append_assoc, List.cons_append, parseFuel_l _ (by simp)]
      exact hParse
  | @dict raw d es entries ascending values ih =>
      have hBody : ∀ e ∈ es, (packStr e.1 ++ e.2.2).length < 2 ^ 31 := by
        intro e he
        have hle := length_le_flatMap (fun e => packStr e.1 ++ e.2.2) he
        simp only [List.length_append, List.length_cons] at hLen hle ⊢
        omega
      have hValue : ∀ e ∈ es, Reads e.2.1 e.2.2 := fun e he => ih e he (by
        have hle := hBody e he
        rw [List.length_append] at hle
        omega)
      have hKeyLen : ∀ e ∈ es, e.1.length < 2 ^ 31 := by
        intro e he
        have hle := hBody e he
        simp only [packStr, List.length_append, List.length_cons] at hle
        omega
      have hDistinct : (keys es).Nodup :=
        ascending.imp (by rintro a b hlt rfl; exact Std.lt_irrefl hlt)
      intro fuel hFuel r
      obtain ⟨fuel, rfl⟩ : ∃ f, fuel = f + 1 :=
        Nat.exists_eq_add_one_of_ne_zero (by rintro rfl; simp at hFuel)
      obtain ⟨raw', es', hEntries, hSame, hParse⟩ := parseDict_append hKeyLen
        (fun e he => (values e he).enters) hValue fuel
        (by simp only [List.length_append, List.length_cons] at hFuel ⊢; omega) []
        (by simpa using hDistinct)
        (ch 'd' :: (es.flatMap (fun e => packStr e.1 ++ e.2.2) ++ ([ch 'e'] ++ r))) r
      have hKeys : keys es' = keys es := by
        rw [← keys_map Prod.fst es', hEntries, keys_map Prod.fst es]
      refine ⟨.dict raw' (es'.map fun e => (e.1, e.2.2)), ?_,
        same_dict (hKeys ▸ hDistinct) hSame (hEntries ▸ entries)⟩
      rw [List.append_assoc, List.cons_append, parseFuel_d _ (by simp)]
      exact hParse

/-! ## The bytes left over -/

/-- A result that leaves no more bytes than it was given, and fewer on success. -/
def Within (s : Bytes) (p : Option BeNode × Nat) : Prop :=
  p.2 ≤ s.length ∧ (p.1 ≠ none → p.2 < s.length)

theorem within_none {s : Bytes} {k : Nat} (h : k ≤ s.length) : Within s (none, k) :=
  ⟨h, fun hne => absurd rfl hne⟩

theorem within_some {s : Bytes} (t : BeNode) {k : Nat} (h : k < s.length) :
    Within s (some t, k) :=
  ⟨h.le, fun _ => h⟩

private theorem ite_cases {P : Option BeNode × Nat → Prop} {c : Prop} [Decidable c]
    {a b : Option BeNode × Nat} (ha : P a) (hb : P b) : P (if c then a else b) := by
  split <;> assumption

theorem Within.cons {s : Bytes} {p : Option BeNode × Nat} (h : Within s p) (c : UInt8) :
    Within (c :: s) p := by
  refine ⟨?_, fun _ => ?_⟩ <;> rw [List.length_cons]
  · exact Nat.le_succ_of_le h.1
  · exact Nat.lt_succ_of_le h.1

theorem length_intLoop_le (n : BitVec 64) (s : Bytes) :
    (intLoop n s).2.length ≤ s.length := by
  fun_induction intLoop n s with
  | case1 n c c' s hDigit ih =>
      rw [List.length_cons]
      omega
  | case2 n c c' s hDigit => exact le_rfl
  | case3 n s => exact le_rfl

theorem length_lengthLoop_le {n m : Int} {s s' : Bytes}
    (h : lengthLoop n s = some (m, s')) : s'.length ≤ s.length := by
  fun_induction lengthLoop n s with
  | case1 n => simp_all
  | case2 n c s hDigit hStop => cases h
  | case3 n c s hDigit hStop ih =>
      have hle := ih h
      rw [List.length_cons]
      omega
  | case4 n c s hDigit =>
      rw [Option.some.injEq, Prod.mk.injEq] at h
      rw [h.2]

theorem within_parseDigits (neg : Bool) (s : Bytes) : Within s (parseDigits neg s) := by
  unfold parseDigits
  split
  · next c c' s' =>
    have hLoop := length_intLoop_le (BitVec.ofNat 64 (digitVal c)) (c' :: s')
    generalize intLoop (BitVec.ofNat 64 (digitVal c)) (c' :: s') = p at hLoop
    obtain ⟨n, t⟩ := p
    refine ite_cases ?_ (within_none le_rfl)
    refine ite_cases (within_none le_rfl) ?_
    cases t with
    | nil => exact within_none (Nat.zero_le _)
    | cons x t =>
        simp only [List.length_cons] at hLoop
        refine ite_cases (within_some _ ?_) (within_none ?_) <;>
          simp only [List.length_cons] <;> omega
  · exact within_none (Nat.zero_le _)

theorem within_parseInt (s : Bytes) : Within s (parseInt s) := by
  unfold parseInt
  split
  · exact within_parseDigits _ _
  · split_ifs
    · exact (within_parseDigits _ _).cons _
    · exact within_parseDigits _ _

theorem within_parseStr (s : Bytes) : Within s (parseStr s) := by
  unfold parseStr
  split
  · exact within_none le_rfl
  · next c s =>
    split_ifs
    · split
      · exact within_none (Nat.zero_le _)
      · exact within_none (Nat.zero_le _)
      · next n x s' hLoop =>
        have hle := length_lengthLoop_le hLoop
        rw [List.length_cons] at hle
        split_ifs
        · exact within_none (by rw [List.length_cons]; omega)
        · exact within_none (Nat.zero_le _)
        · exact within_some _ (by rw [List.length_cons]; omega)
    · exact within_none le_rfl

/-- The three functions of the parser together, by induction on the depth. -/
theorem within_parse (fuel : Nat) :
    (∀ s, Within s (parseFuel fuel s)) ∧
    (∀ s a, Within s (parseList fuel s a)) ∧
    (∀ dBegin s map, Within s (parseDict fuel dBegin s map)) := by
  induction fuel with
  | zero =>
      refine ⟨fun s => ?_, fun s a => ?_, fun dBegin s map => ?_⟩
      · exact within_none (Nat.zero_le _)
      · exact within_none (Nat.zero_le _)
      · exact within_none (Nat.zero_le _)
  | succ fuel ih =>
      obtain ⟨ihParse, ihList, ihDict⟩ := ih
      -- What is left after a child is shorter than the text before it.
      have hDrop : ∀ s t k, parseFuel fuel s = (some t, k) →
          (s.drop (s.length - k)).length < s.length := by
        intro s t k h
        have hlt := (ihParse s).2 (by rw [h]; simp)
        rw [h] at hlt
        rw [List.length_drop]
        omega
      have hShrink : ∀ {s s' : Bytes} {p}, s'.length < s.length → Within s' p →
          Within s p := by
        intro s s' p hlt h
        exact ⟨by have := h.1; omega, fun _ => by have := h.1; omega⟩
      refine ⟨fun s => ?_, fun s a => ?_, fun dBegin s map => ?_⟩
      · rw [parseFuel.eq_def]
        dsimp only
        split_ifs
        · exact within_none (Nat.zero_le _)
        · split
          · exact within_none le_rfl
          · split_ifs
            · exact (within_parseInt _).cons _
            · exact (ihList _ _).cons _
            · exact (ihDict _ _ _).cons _
            · exact within_parseStr _
      · rw [parseList.eq_def]
        dsimp only
        split_ifs
        · split
          · next rest1 h => exact within_none (by have := (ihParse s).1; rw [h] at this; exact this)
          · next n rest1 h => exact hShrink (hDrop s n rest1 h) (ihList _ _)
        · split
          · exact within_none le_rfl
          · split_ifs
            · exact within_some _ (by rw [List.length_cons]; omega)
            · exact within_none le_rfl
      · rw [parseDict.eq_def]
        dsimp only
        split_ifs
        · split
          · next rest1 h => exact within_none (by have := (ihParse s).1; rw [h] at this; exact this)
          · next key rest1 h =>
            have hlt := hDrop s _ rest1 h
            split
            · next rest2 h2 =>
              refine within_none ?_
              have hle := (ihParse (s.drop (s.length - rest1))).1
              rw [h2] at hle
              exact hle.trans hlt.le
            · next v rest2 h2 =>
              exact hShrink ((hDrop _ v rest2 h2).trans hlt) (ihDict _ _ _)
          · exact within_none le_rfl
        · split
          · exact within_none le_rfl
          · split_ifs
            · exact within_some _ (by rw [List.length_cons]; omega)
            · exact within_none le_rfl

theorem rest_lt {s : Bytes} {t : BeNode} {k : Nat} (h : parse s = (some t, k)) :
    k < s.length := by
  have hlt := ((within_parse (2 * s.length)).1 s).2
  rw [show parseFuel (2 * s.length) s = (some t, k) from h] at hlt
  exact hlt (by simp)

/-! ## The round trip -/

/-- Packing and parsing: the tree comes back, the bytes after it are left over,
the length recursion counts the bytes written, and these are in the format. -/
theorem parse_pack {t : BeNode} (hKeys : WellKeyed t) (hSize : (pack t).length < 2 ^ 31)
    (r : Bytes) :
    (∃ t', parse (pack t ++ r) = (some t', r.length) ∧ Same t t') ∧
      computeLength t = (pack t).length ∧ Encodes t (pack t) := by
  have hEncodes := encodes_pack hKeys
  refine ⟨?_, computeLength_eq hKeys, hEncodes⟩
  refine reads_of_encodes hEncodes hSize _ ?_ r
  rw [List.length_append]
  omega

/-- A dictionary listed out of order, with a list and a negative number in it. -/
def sample : BeNode :=
  .dict [] [([98], .list [.int (-5), .str []]), ([97, 0], .str [1]), ([97], .int 10)]

theorem wellKeyed_sample : WellKeyed sample := by
  refine .dict (by decide) fun e he => ?_
  simp only [List.mem_cons, List.not_mem_nil, or_false] at he
  rcases he with rfl | rfl | rfl
  · refine .list fun t ht => ?_
    simp only [List.mem_cons, List.not_mem_nil, or_false] at ht
    rcases ht with rfl | rfl
    · exact .int _
    · exact .str _
  · exact .str _
  · exact .int _

theorem parse_pack_sample :
    (∃ t', parse (pack sample ++ [120]) = (some t', 1) ∧ Same sample t') ∧
      computeLength sample = (pack sample).length ∧ Encodes sample (pack sample) :=
  parse_pack wellKeyed_sample (by decide) [120]

end Lftp.Ports.Bencode
