import Stencil.Resolution.Pass
import Stencil.Resolution.Unresolved

namespace Stencil

/-! Resolution repeats passes until one changes nothing. -/

structure Resolution where
  document : Node
  unresolved : List UnresolvedNode
  passes : Nat

inductive ResolutionFault where
  | unresolved (nodes : List UnresolvedNode)
  | passLimit (limit : Nat)

def ResolutionFault.message : ResolutionFault → String
  | .unresolved nodes => UnresolvedNode.listText nodes
  | .passLimit limit => "document did not settle within " ++ toString limit ++ " passes"

namespace Resolution

def isComplete (resolution : Resolution) : Bool := resolution.unresolved.isEmpty

/-- How many passes are tried when nothing else is said. -/
def defaultLimit : Nat := 1024

/-- The passes from one document on, when some were made and some are left. Nothing
is answered when the document has not settled by then. -/
def settle (answers : Answers) (stubs : List Node) :
    Nat → Nat → Node → Except Pause (Option Resolution)
  | 0, _, _ => .ok none
  | left + 1, passes, document => do
      let next ← Pass.run answers stubs document
      if next == document then return some ⟨next, next.unresolved, passes + 1⟩
      else settle answers stubs left (passes + 1) next

/-- Resolve a template as far as possible. -/
def partly (answers : Answers) (limit : Nat) (stubs : List Node) (template : Node) :
    Except Pause (Except ResolutionFault Resolution) := do
  match ← settle answers stubs limit 0 template with
  | some resolution => return .ok resolution
  | none => return .error (.passLimit limit)

/-- Only a resolution that leaves nothing unresolved. -/
def complete (resolution : Resolution) : Except ResolutionFault Resolution :=
  if resolution.isComplete then .ok resolution else .error (.unresolved resolution.unresolved)

/-- Resolve a template completely. -/
def whole (answers : Answers) (stubs : List Node) (template : Node) :
    Except Pause (Except ResolutionFault Resolution) := do
  return (← partly answers defaultLimit stubs template).bind complete

/-- Resolve every stub, as far as possible, against the stubs after it. -/
def stubs (answers : Answers) (limit : Nat) :
    List Node → Except Pause (Except ResolutionFault (List Node))
  | [] => .ok (.ok [])
  | stub :: later => do
      match ← stubs answers limit later with
      | .error fault => return .error fault
      | .ok later =>
          match ← partly answers limit later stub with
          | .error fault => return .error fault
          | .ok resolution => return .ok (resolution.document :: later)

/-- Resolve the stubs and then a template against all of them. -/
def cascade (answers : Answers) (limit : Nat) (allowPartial : Bool) (given : List Node)
    (template : Node) : Except Pause (Except ResolutionFault Resolution) := do
  match ← stubs answers limit given with
  | .error fault => return .error fault
  | .ok resolved =>
      match ← partly answers limit resolved template with
      | .error fault => return .error fault
      | .ok resolution =>
          return if allowPartial then .ok resolution else resolution.complete

end Resolution

end Stencil
