import Stencil.Expression.Print
import Stencil.Node.Lookup

namespace Stencil

/-! The place of a node in two notations. The context has an index for every list
entry; the logical path calls the entries by their names where they have one, the
way references do. -/

structure Place where
  context : List String
  logical : List String
deriving DecidableEq, Repr

namespace Place

def root : Place := ⟨[], []⟩

def field (place : Place) (key : String) : Place :=
  ⟨place.context ++ [key], place.logical ++ [key]⟩

def entry (place : Place) (index : Nat) (node : Node) : Place :=
  ⟨place.context ++ [indexText index], place.logical ++ [stepName index node]⟩

def text (place : Place) : String :=
  Expression.pathText place.context ++ "\t(" ++ Expression.pathText place.logical ++ ")"

end Place

mutual
def Value.placesBelow (place : Place) : Value → List (Place × Node)
  | .list entries => entryPlaces place 0 entries
  | .map fields => fieldPlaces place fields
  | _ => []

/-- The node itself and then everything below it, in the order of the document. -/
def Node.placesFrom (place : Place) : Node → List (Place × Node)
  | .mk value annotations => (place, .mk value annotations) :: value.placesBelow place

def entryPlaces (place : Place) (index : Nat) : List Node → List (Place × Node)
  | [] => []
  | entry :: entries =>
      entry.placesFrom (place.entry index entry) ++ entryPlaces place (index + 1) entries

def fieldPlaces (place : Place) : List (String × Node) → List (Place × Node)
  | [] => []
  | (key, field) :: fields => field.placesFrom (place.field key) ++ fieldPlaces place fields
end

/-- All nodes of a document, parents before children. -/
def Node.places (document : Node) : List (Place × Node) := document.placesFrom .root

end Stencil
