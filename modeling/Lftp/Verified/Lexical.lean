import Lftp.Verified.Segments

/-!
# Where a path leads, lexically

A path is read component by component from the place where it starts: an empty
component and `.` stay, `..` goes one level up, and any other component goes down.
`walk` is that reading for a path with `/` between the components, `resolve` reads
it from the root. A place is the list of components that leads to it.
-/

namespace Lftp.Verified.Lexical

def slash : UInt8 := 47

def dot : UInt8 := 46

/-- One component, from a place. -/
def step (place : List Bytes) (c : Bytes) : List Bytes :=
  if c = [] ∨ c = [dot] then place
  else if c = [dot, dot] then place.dropLast
  else place ++ [c]

/-- Where the path `p` leads from a place. -/
def walk (place : List Bytes) (p : Bytes) : List Bytes := (p.splitOn slash).foldl step place

/-- Where the path `p` leads from the root. -/
def resolve (p : Bytes) : List Bytes := walk [] p

/-- A component that goes down. -/
structure Proper (c : Bytes) : Prop where
  ne_nil : c ≠ []
  ne_dot : c ≠ [dot]
  ne_dots : c ≠ [dot, dot]
  clean : slash ∉ c

end Lftp.Verified.Lexical
