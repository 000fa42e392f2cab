import PegCompiler.Code.Instruction
import PegCompiler.Text.Index
import PegCompiler.Text.NormalForm

/-!
Which code a reference to a rule runs. Every rule gives a function of its name, and functions are
named by normal forms: where several rules have the same one, the last of them gives the function
for all.
-/

namespace PegCompiler

namespace Linking

/-- For every name, the place of the last one with the same normal form. -/
def places (names : List Text) : List Nat :=
  let normal := names.map Text.normalForm
  normal.map fun name => normal.length - 1 - normal.reverse.idxOf name

/-- The reference to a rule at one of the places; any other stays as it is. -/
def reference (places : List Nat) (index : Int) : Int :=
  match Index.at? places index with
  | some place => place
  | none => index

mutual

/-- An instruction with its references linked. -/
def instr (places : List Nat) : Instr → Instr
  | .op (.rule index) => .op (.rule (reference places index))
  | .op o => .op o
  | .branch test yes no => .branch test (code places yes) (code places no)
  | .loop endless body => .loop endless (code places body)

def code (places : List Nat) : List Instr → List Instr
  | [] => []
  | i :: rest => instr places i :: code places rest

end

end Linking

end PegCompiler
