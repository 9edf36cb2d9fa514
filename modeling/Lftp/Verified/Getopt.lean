import Lftp.Verified.Decimal

/-!
# Options of a command

`getopt_long` where the first operand ends the options (a `+` starts the option
string): clusters of one-letter options, long options and their abbreviations,
and arguments of options in the same or in the next word.

* `getopt_operand`: an operand in front is left with all that follows it.
* `getopt_option`: an option that stands alone leaves no operand.
* `mem_of_mem_operands`: the operands are among the words.
-/

namespace Lftp.Verified

/-- `struct option`. -/
structure LongOption where
  name : Bytes
  hasArg : Bool
  val : UInt8
deriving DecidableEq

/-- The letters with "takes an argument", and the long options. -/
structure OptionTable where
  short : List (UInt8 × Bool)
  long : List LongOption

/-- What a call of `getopt_long` returns; `bad` stands for the question mark. -/
inductive Opt where
  | known (val : UInt8) (optarg : Option Bytes)
  | bad
deriving DecidableEq

/-- A word that is not an operand. -/
def isOption : Bytes → Bool
  | c :: _ :: _ => c = ch '-'
  | _ => false

namespace OptionTable

variable (t : OptionTable)

/-- The options of a cluster, and the one whose argument is the next word. -/
def cluster : Bytes → List Opt × Option UInt8
  | [] => ([], none)
  | c :: text =>
    match t.short.lookup c with
    | none => (.bad :: (cluster text).1, (cluster text).2)
    | some false => (.known c none :: (cluster text).1, (cluster text).2)
    | some true => if text = [] then ([], some c) else ([.known c (some text)], none)

/-- The long option of a name or of an unambiguous abbreviation. -/
def findLong (name : Bytes) : Option LongOption :=
  match t.long.find? fun o => o.name = name with
  | some o => some o
  | none =>
    match t.long.filter fun o => name.isPrefixOf o.name with
    | [] => none
    | o :: os => if os.all fun o' => o'.hasArg = o.hasArg && o'.val = o.val then some o else none

def longOption (text : Bytes) : List Opt × Option UInt8 :=
  match t.findLong (text.takeWhile fun c => c ≠ ch '='), text.dropWhile fun c => c ≠ ch '=' with
  | none, _ => ([.bad], none)
  | some o, [] => if o.hasArg then ([], some o.val) else ([.known o.val none], none)
  | some o, _ :: value =>
    if o.hasArg then ([.known o.val (some value)], none) else ([.bad], none)

/-- The options of one word. -/
def word (arg : Bytes) : List Opt × Option UInt8 :=
  if (bytes "--").isPrefixOf arg then t.longOption (arg.drop 2) else t.cluster (arg.drop 1)

/-- All options of the words after the name of the command, and the operands. -/
def getopt : List Bytes → List Opt × List Bytes
  | [] => ([], [])
  | arg :: args =>
    if arg = bytes "--" then ([], args)
    else if isOption arg = false then ([], arg :: args)
    else
      match (t.word arg).2 with
      | none => ((t.word arg).1 ++ (getopt args).1, (getopt args).2)
      | some val =>
        match args with
        | [] => ((t.word arg).1 ++ [.bad], [])
        | optarg :: args =>
          ((t.word arg).1 ++ .known val (some optarg) :: (getopt args).1, (getopt args).2)

variable {t}

theorem getopt_operand {arg : Bytes} (h : isOption arg = false) (args : List Bytes) :
    t.getopt (arg :: args) = ([], arg :: args) := by
  have hDashes : arg ≠ bytes "--" := by
    rintro rfl
    exact absurd h (by decide)
  rw [getopt, if_neg hDashes, if_pos h]

theorem getopt_option {arg : Bytes} (h : isOption arg = true) : (t.getopt [arg]).2 = [] := by
  rw [getopt]
  by_cases hDashes : arg = bytes "--"
  · rw [if_pos hDashes]
  · rw [if_neg hDashes, if_neg (by rw [h]; nofun)]
    split
    · rfl
    · rfl

theorem mem_of_mem_operands {args : List Bytes} {arg : Bytes} (h : arg ∈ (t.getopt args).2) :
    arg ∈ args := by
  fun_induction t.getopt args with
  | case1 => cases h
  | case2 args => exact List.mem_cons_of_mem _ h
  | case3 => exact h
  | case4 arg' args hDashes hOption hNone ih => exact List.mem_cons_of_mem arg' (ih h)
  | case5 => cases h
  | case6 arg' hDashes hOption val hVal optarg args ih =>
      exact List.mem_cons_of_mem arg' (List.mem_cons_of_mem optarg (ih h))

end OptionTable

end Lftp.Verified
