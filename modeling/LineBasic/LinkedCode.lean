import Std.Data.TreeMap
import LineBasic.Instruction
/-!
Linking: labels leave the code, and every branch goes to the address of the instruction that followed its label.
-/
namespace LineBasic

variable {R : Type}

/-- Code that a machine can run, and the addresses of the labels that were in it. -/
structure LinkedCode (R : Type) where
  code : Array (Instruction R Nat) := #[]
  labels : Std.TreeMap String Nat := ∅

namespace LinkedCode

/-- The labels of code that starts at `address`, added to `labels`. None may occur twice. -/
def collectLabels (address : Nat) (labels : Std.TreeMap String Nat) :
    List (Instruction R String) → Except Error (Std.TreeMap String Nat)
  | [] => .ok labels
  | .label name :: code =>
    if labels.contains name then
      .error (ErrorCode.internalError.error ("DUPLICATE LABEL " ++ name))
    else collectLabels address (labels.insert name address) code
  | _ :: code => collectLabels (address + 1) labels code

/-- The address of a label. -/
def find (labels : Std.TreeMap String Nat) (name : String) : Except Error Nat :=
  match labels[name]? with
  | some address => .ok address
  | none => .error (ErrorCode.internalError.error ("UNDEFINED LABEL " ++ name))

/-- Appends the instructions of a list that are no labels, with their branches resolved. -/
def resolveFrom (labels : Std.TreeMap String Nat) (done : Array (Instruction R Nat)) :
    List (Instruction R String) → Except Error (Array (Instruction R Nat))
  | [] => .ok done
  | .label _ :: code => resolveFrom labels done code
  | i :: code =>
    match i.resolve (find labels) with
    | .ok i => resolveFrom labels (done.push i) code
    | .error e => .error e

/-- Links a list of instructions. -/
def link (code : List (Instruction R String)) : Except Error (LinkedCode R) := do
  let labels ← collectLabels 0 ∅ code
  return { code := ← resolveFrom labels #[] code, labels }

end LinkedCode

end LineBasic
