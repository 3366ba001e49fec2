import Std.Data.TreeMap
/-!
# Numbered strings

Identifiers, string contents and operator spellings are numbered in the order in which they are
first seen. An `Interner` holds both directions: the number of a string and the string of a number.
The empty string has number 0 from the start, so an interner is never empty.
-/

namespace LambdaScript

/-- The number of a string. Names of different interners have nothing to do with each other. -/
structure Name where
  index : Nat
deriving DecidableEq, BEq, ReflBEq, LawfulBEq, Hashable, Inhabited

namespace Name

/-- The empty string. -/
def empty : Name := ⟨0⟩

instance : Ord Name := ⟨compareOn index⟩

instance : Std.TransOrd Name := inferInstanceAs (Std.TransCmp (compareOn index))

instance : Std.LawfulEqOrd Name where
  eq_of_compare := fun {a b} h => by
    have hindex : a.index = b.index := Std.LawfulEqOrd.eq_of_compare h
    cases a
    cases b
    simp_all

instance : LT Name := ⟨fun a b => a.index < b.index⟩

instance (a b : Name) : Decidable (a < b) := inferInstanceAs (Decidable (a.index < b.index))

instance : ToString Name := ⟨fun n => s!"Name({n.index})"⟩

end Name

/-- Why a string could not be numbered. -/
inductive InternError where
  /-- All numbers up to the largest are in use; `count` strings are held. -/
  | overflow (count : Nat)
deriving DecidableEq

/-- The text of an interning error. -/
def InternError.message : InternError → String
  | overflow count => s!"interner exceeded capacity: {count} strings"

/-- Strings by number and numbers by string. -/
structure Interner where
  ids : Std.TreeMap String Name
  strings : Array String

namespace Interner

/-- The largest number a string can have; numbers are 32 bits wide. -/
def maxIndex : Nat := 0xffffffff

/-- How many numbers there are. -/
def capacity : Nat := maxIndex + 1

/-- Holds the empty string only. -/
def fresh : Interner := ⟨(∅ : Std.TreeMap String Name).insert "" Name.empty, #[""]⟩

instance : Inhabited Interner := ⟨fresh⟩

/-- How many strings are held. -/
def size (names : Interner) : Nat := names.strings.size

/-- The empty string is always there. -/
def isEmpty (_ : Interner) : Bool := false

/-- The string with a number, if the number is in use. -/
def find? (names : Interner) (name : Name) : Option String := names.strings[name.index]?

/-- The string with a number in use. -/
def spelling (names : Interner) (name : Name) : String := (names.find? name).getD ""

/-- Hold `s` under the next number. -/
def push (names : Interner) (s : String) : Name × Interner :=
  let name : Name := ⟨names.strings.size⟩
  (name, ⟨names.ids.insert s name, names.strings.push s⟩)

/-- The number of `s`, a new one if `s` was not seen before; fails when all numbers are in use. -/
def tryIntern (names : Interner) (s : String) : Except InternError Name × Interner :=
  match names.ids[s]? with
  | some name => (.ok name, names)
  | none =>
    if names.strings.size ≤ maxIndex then
      let (name, names) := names.push s
      (.ok name, names)
    else (.error (.overflow names.strings.size), names)

/-- The number of `s`, a new one if `s` was not seen before. Where `tryIntern` fails this would be
the end of the program; it is total here and goes on counting, and that the numbers have run out can
be told from its holding more than `capacity` strings ever after. -/
def intern (names : Interner) (s : String) : Name × Interner :=
  match names.ids[s]? with
  | some name => (name, names)
  | none => names.push s

instance : ToString Interner := ⟨fun names => s!"StringInterner \x7b len: {names.size} \x7d"⟩

end Interner

end LambdaScript
