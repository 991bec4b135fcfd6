import Std.Data.TreeMap
import LineBasic.Value
import LineBasic.Text.Digits
/-!
What the compiler knows of the natives: their signatures, kept by name.
-/
namespace LineBasic

/-- What the compiler knows of one native. -/
structure Signature where
  /-- The fewest arguments of a call. -/
  least : Nat
  /-- The most arguments of a call. -/
  most : Nat
  /-- The types of the parameters; the last one repeats. -/
  parameters : List ValueType
  /-- The type of the result; a native without one is a statement only. -/
  result : Option ValueType
deriving DecidableEq, Repr

namespace Signature

/-- The signature of a native that is called as a statement. -/
def statement (least most : Nat) (parameters : List ValueType) : Signature :=
  { least, most, parameters, result := none }

/-- The signature of a native that is called in an expression. -/
def function (least most : Nat) (parameters : List ValueType) (result : ValueType) : Signature :=
  { least, most, parameters, result := some result }

/-- The type of the argument at `index`, if the signature asks for one. -/
def parameter? (s : Signature) (index : Nat) : Option ValueType :=
  s.parameters[index]?.or s.parameters.getLast?

/-- A call may have `count` arguments. -/
def accepts (s : Signature) (count : Nat) : Bool :=
  s.least ≤ count && count ≤ s.most

end Signature

/-- The signatures of the natives, by name in upper case. -/
structure Registry where
  entries : Std.TreeMap String Signature := ∅

namespace Registry

/-- No native at all. -/
def empty : Registry := {}

/-- The signature of the native with exactly this name. -/
def get? (r : Registry) (name : String) : Option Signature :=
  r.entries[name]?

/-- Declares a native under its name in upper case, in place of an earlier one of that name. -/
def insert (r : Registry) (name : String) (signature : Signature) : Registry :=
  { entries := r.entries.insert (Text.upper name) signature }

/-- The registry of a list of declarations, of which later ones replace earlier ones. -/
def declare (r : Registry) (declarations : List (String × Signature)) : Registry :=
  declarations.foldl (fun r d => r.insert d.1 d.2) r

/-- The declared names in order. -/
def names (r : Registry) : List String :=
  r.entries.keys

theorem get?_insert (r : Registry) (name key : String) (signature : Signature) :
    (r.insert name signature).get? key =
      if Text.upper name = key then some signature else r.get? key := by
  simp only [get?, insert, Std.TreeMap.getElem?_insert, Std.LawfulEqCmp.compare_eq_iff_eq]

end Registry

end LineBasic
