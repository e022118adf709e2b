import Stencil.Number.Decimal

namespace Stencil

/-! Plain data as it is read and written: any value may be the key of a mapping,
integers have no bound, and a value may carry a tag. -/

inductive Tree where
  | null
  | boolean (value : Bool)
  | integer (value : Int)
  | decimal (value : Number.Decimal)
  | text (value : String)
  | sequence (entries : List Tree)
  | mapping (fields : List (Tree × Tree))
  | tagged (tag : String) (value : Tree)

instance : Inhabited Tree := ⟨.null⟩

/-- What stands behind the bang of a tag. A bang alone is a name, and the bang in
front of a name may be missing. -/
def Tree.tagName (tag : String) : String :=
  match tag.toList with
  | '!' :: character :: rest => .ofList (character :: rest)
  | _ => tag

/-! Keys are equal when they hold the same data; a key that is no number equals
itself, and the fields of a key that is a mapping may come in any order. -/

private def sameNumber (left right : Number.Decimal) : Bool :=
  (left.isNaN && right.isNaN) || left.same right

mutual
def Tree.same : Tree → Tree → Bool
  | .null, .null => true
  | .boolean left, .boolean right => left == right
  | .integer left, .integer right => left == right
  | .decimal left, .decimal right => sameNumber left right
  | .text left, .text right => left == right
  | .sequence left, .sequence right => sameSequence left right
  | .mapping left, .mapping right => left.length == right.length && sameMapping left right
  | .tagged tag left, .tagged tag' right =>
      Tree.tagName tag == Tree.tagName tag' && left.same right
  | _, _ => false

def sameSequence : List Tree → List Tree → Bool
  | [], [] => true
  | left :: lefts, right :: rights => left.same right && sameSequence lefts rights
  | _, _ => false

/-- Every field of the first mapping has an equal one in the second. -/
def sameMapping : List (Tree × Tree) → List (Tree × Tree) → Bool
  | [], _ => true
  | (key, left) :: lefts, rights =>
      rights.any (fun right => key.same right.1 && left.same right.2) && sameMapping lefts rights
end

namespace Tree

/-- Replace the value of an equal key in its place, or add the field at the end. -/
def put (key value : Tree) : List (Tree × Tree) → List (Tree × Tree)
  | [] => [(key, value)]
  | (other, old) :: rest =>
      if key.same other then (other, value) :: rest else (other, old) :: put key value rest

/-- The mapping of these fields; a key that comes again keeps its place and takes
the later value. -/
def ofFields (fields : List (Tree × Tree)) : Tree :=
  .mapping (fields.foldl (fun table (key, value) => put key value table) [])

end Tree

end Stencil
