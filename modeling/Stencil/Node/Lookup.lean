import Stencil.Node.Basic
import Stencil.Number.Read

namespace Stencil

/-! Finding nodes by path. A step is the key of a map field, the index of a list
entry in brackets, or the name of a list entry. -/

namespace Node

def get? (node : Node) (key : String) : Option Node :=
  match node.value with
  | .map fields => fields.lookup key
  | _ => none

def findText? (node : Node) (key : String) : Option String :=
  match (node.get? key).map value with
  | some (.text text) => some text
  | _ => none

/-- The text in the field `name` of a map. -/
def name? (node : Node) : Option String := node.findText? "name"

end Node

/-- The number between brackets that a step consists of. -/
def indexOf? (step : String) : Option Nat :=
  match step.toList with
  | '[' :: rest =>
      match rest.reverse with
      | ']' :: digits => Number.readUnsigned? 18446744073709551615 digits.reverse
      | _ => none
  | _ => none

def indexText (index : Nat) : String := "[" ++ toString index ++ "]"

/-- The step that leads to a list entry: its name if it has one, or its index. -/
def stepName (index : Nat) (entry : Node) : String :=
  entry.name?.getD (indexText index)

inductive Lookup where
  | found (node : Node)
  /-- An expression stands in the way; the path may exist later. -/
  | unresolved
  | missing

namespace Lookup

def found? : Lookup → Option Node
  | .found node => some node
  | _ => none

def ofOption : Option Node → Lookup
  | some node => .found node
  | none => .missing

end Lookup

def markerKey : String := "<<"

namespace Node

/-- The entry of a list that a step leads to. -/
def listEntry (entries : List Node) (step : String) : Option Node :=
  match indexOf? step with
  | some index => entries[index]?
  | none => entries.find? fun entry => entry.name? = some step

/-- One step down. A map whose merge marker is not resolved may still get the key. -/
def child (node : Node) (step : String) : Lookup :=
  if !node.isLocallyResolved then .unresolved
  else
    match node.value with
    | .map fields =>
        match fields.lookup step, fields.lookup markerKey with
        | some field, _ => .found field
        | none, some marker => if marker.isResolved then .missing else .unresolved
        | none, none => .missing
    | .list entries => .ofOption (listEntry entries step)
    | _ => .missing

def find (node : Node) : List String → Lookup
  | [] => .found node
  | step :: rest =>
      match node.child step with
      | .found next => next.find rest
      | stopped => stopped

end Node

/-! Equivalence also ignores the order of lists in which every entry has a name. -/

mutual
def Value.equivalent : Value → Value → Bool
  | .list left, .list right =>
      left.length == right.length
        && (if (left ++ right).all (·.name?.isSome) then entriesByName left right
            else entriesInOrder left right)
  | .map left, .map right => left.length == right.length && fieldsEquivalent left right
  | left, right => left == right
termination_by structural left => left

def Node.equivalent : Node → Node → Bool
  | .mk left _, .mk right _ => left.equivalent right
termination_by structural left => left

/-- Every entry is equivalent to the first one of the same name. -/
def entriesByName : List Node → List Node → Bool
  | [], _ => true
  | left :: lefts, rights =>
      (match rights.find? (·.name? = left.name?) with
        | some right => left.equivalent right
        | none => false) && entriesByName lefts rights
termination_by structural lefts => lefts

def entriesInOrder : List Node → List Node → Bool
  | left :: lefts, right :: rights => left.equivalent right && entriesInOrder lefts rights
  | _, _ => true
termination_by structural lefts => lefts

def fieldsEquivalent : List (String × Node) → List (String × Node) → Bool
  | [], _ => true
  | (key, left) :: lefts, rights =>
      (match rights.lookup key with
        | some right => left.equivalent right
        | none => false) && fieldsEquivalent lefts rights
termination_by structural lefts => lefts
end

end Stencil
