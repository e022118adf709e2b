import Stencil.Issue
import Stencil.Number.Decimal
import Stencil.Table
import Stencil.Text.Embedded

namespace Stencil

/-! What a node carries beside its value: the document it comes from, what later
passes have to know about the merge that produced it, and the last issue. -/

structure Annotations where
  source : Option String := none
  redirect : Option (List String) := none
  replace : Bool := false
  preferred : Bool := false
  issue : Option Issue := none
deriving DecidableEq

/-! Document trees. The keys of a map are all different and keep the order of
insertion. A lambda holds the local names it captured, sorted. -/

mutual
inductive Value where
  | null
  | boolean (value : Bool)
  | integer (value : Int64)
  | decimal (value : Number.Decimal)
  | text (value : String)
  | list (entries : List Node)
  | map (fields : List (String × Node))
  | expression (expression : Expression)
  | lambda (parameters : List String) (body : Expression) (captured : List (String × Node))

inductive Node where
  | mk (value : Value) (annotations : Annotations)
end

instance : Inhabited Value := ⟨.null⟩

instance : Inhabited Node := ⟨.mk .null {}⟩

namespace Value

def kind : Value → Kind
  | .null => .null
  | .boolean _ => .boolean
  | .integer _ => .integer
  | .decimal _ => .decimal
  | .text _ => .text
  | .list _ => .list
  | .map _ => .map
  | .expression _ => .expression
  | .lambda _ _ _ => .lambda

/-- What a condition makes of a value. -/
def truthy : Value → Bool
  | .null => false
  | .boolean value => value
  | .text value => !value.isEmpty
  | .integer value => value != 0
  | .list entries => !entries.isEmpty
  | .map fields => !fields.isEmpty
  | _ => true

end Value

namespace Node

def value : Node → Value
  | .mk value _ => value

def annotations : Node → Annotations
  | .mk _ annotations => annotations

/-- A node that carries nothing but where it comes from. -/
def ofSource (source : Option String) (value : Value) : Node :=
  .mk value { source }

def kind (node : Node) : Kind := node.value.kind

def source (node : Node) : Option String := node.annotations.source

def redirect (node : Node) : Option (List String) := node.annotations.redirect

def issue (node : Node) : Option Issue := node.annotations.issue

/-! Changed nodes. Another value keeps all annotations. A source or a redirect
path only takes the place of the old one when it is there, and the flags stay
once they are set. -/

def withValue (node : Node) (value : Value) : Node := .mk value node.annotations

def withSource (node : Node) (source : Option String) : Node :=
  .mk node.value { node.annotations with source := source <|> node.source }

def withRedirect (node : Node) (redirect : Option (List String)) : Node :=
  .mk node.value { node.annotations with redirect := redirect <|> node.redirect }

def withReplace (node : Node) (replace : Bool) : Node :=
  .mk node.value { node.annotations with replace := node.annotations.replace || replace }

def withPreferred (node : Node) (preferred : Bool) : Node :=
  .mk node.value { node.annotations with preferred := node.annotations.preferred || preferred }

def withIssue (node : Node) (issue : Option Issue) : Node :=
  .mk node.value { node.annotations with issue }

@[simp] theorem value_mk (value : Value) (annotations : Annotations) :
    (Node.mk value annotations).value = value := rfl

@[simp] theorem annotations_mk (value : Value) (annotations : Annotations) :
    (Node.mk value annotations).annotations = annotations := rfl

@[simp] theorem value_withValue (node : Node) (value : Value) :
    (node.withValue value).value = value := rfl

@[simp] theorem value_withSource (node : Node) (source : Option String) :
    (node.withSource source).value = node.value := rfl

@[simp] theorem value_withRedirect (node : Node) (redirect : Option (List String)) :
    (node.withRedirect redirect).value = node.value := rfl

@[simp] theorem value_withReplace (node : Node) (replace : Bool) :
    (node.withReplace replace).value = node.value := rfl

@[simp] theorem value_withPreferred (node : Node) (preferred : Bool) :
    (node.withPreferred preferred).value = node.value := rfl

@[simp] theorem value_withIssue (node : Node) (issue : Option Issue) :
    (node.withIssue issue).value = node.value := rfl

end Node

/-! A value is unresolved where an expression or a text with an embedded
expression stands. -/

namespace Value

/-- The value itself is resolved; what lies below it may not be. -/
def isLocallyResolved : Value → Bool
  | .expression _ => false
  | .text value => (Text.embedded? value).isNone
  | _ => true

end Value

mutual
def Value.isResolved : Value → Bool
  | .list entries => entriesResolved entries
  | .map fields => fieldsResolved fields
  | value => value.isLocallyResolved

def Node.isResolved : Node → Bool
  | .mk value _ => value.isResolved

def entriesResolved : List Node → Bool
  | [] => true
  | entry :: entries => entry.isResolved && entriesResolved entries

def fieldsResolved : List (String × Node) → Bool
  | [] => true
  | (_, field) :: fields => field.isResolved && fieldsResolved fields
end

namespace Node

def isLocallyResolved (node : Node) : Bool := node.value.isLocallyResolved

def isExpression (node : Node) : Bool := node.kind = .expression

end Node

/-! Values are equal when their contents are: annotations do not matter, nor does
the order of the keys of a map. A decimal that is no number equals nothing, not
even itself. -/

mutual
def Value.same : Value → Value → Bool
  | .null, .null => true
  | .boolean left, .boolean right => left == right
  | .integer left, .integer right => left == right
  | .decimal left, .decimal right => left.same right
  | .text left, .text right => left == right
  | .list left, .list right => sameEntries left right
  | .map left, .map right => left.length == right.length && sameFields left right
  | .expression left, .expression right => left == right
  | .lambda parameters body captured, .lambda parameters' body' captured' =>
      parameters == parameters' && body == body' && sameCaptured captured captured'
  | _, _ => false
termination_by structural left => left

def Node.same : Node → Node → Bool
  | .mk left _, .mk right _ => left.same right
termination_by structural left => left

def sameEntries : List Node → List Node → Bool
  | [], [] => true
  | left :: lefts, right :: rights => left.same right && sameEntries lefts rights
  | _, _ => false
termination_by structural lefts => lefts

/-- Every field of the first map has an equal one in the second. -/
def sameFields : List (String × Node) → List (String × Node) → Bool
  | [], _ => true
  | (key, left) :: lefts, rights =>
      (match rights.lookup key with
        | some right => left.same right
        | none => false) && sameFields lefts rights
termination_by structural lefts => lefts

def sameCaptured : List (String × Node) → List (String × Node) → Bool
  | [], [] => true
  | (name, left) :: lefts, (name', right) :: rights =>
      name == name' && left.same right && sameCaptured lefts rights
  | _, _ => false
termination_by structural lefts => lefts
end

instance : BEq Value := ⟨Value.same⟩

instance : BEq Node := ⟨Node.same⟩

end Stencil
