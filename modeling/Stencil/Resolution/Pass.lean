import Stencil.Resolution.Marker

namespace Stencil

/-! One pass over a document. Every expression is evaluated against the document
as it was before the pass, and replaced where it has a value. -/

/-- Which nodes a stub may take the place of. -/
inductive Override where
  /-- None: something above was replaced as a whole. -/
  | never
  /-- Nodes that are still expressions. -/
  | expressions
  /-- Also plain values: a marker above merged in this pass. -/
  | all
deriving DecidableEq, Repr

namespace Override

/-- The mode for the entries of a collection. -/
def entries (mode : Override) (replaced merged : Bool) : Override :=
  if replaced || mode = .never then .never
  else if merged then .all
  else mode

def allows (mode : Override) (isExpression : Bool) : Bool :=
  match mode with
  | .never => false
  | .expressions => isExpression
  | .all => true

end Override

namespace Pass

/-! A leaf, which is no collection. -/

def isPreferredLeaf : Option (Except Issue Expression) → Bool
  | some (.ok expression) => expression.isPreferred
  | _ => false

/-- What the stubs have for a leaf, unless it is preferred or not to be overridden. -/
def stubFor? (node : Node) (binding : Binding) (mode : Override) : Option Node :=
  let expression := node.expression? binding.path
  if mode.allows expression.isSome && !node.annotations.preferred
      && !isPreferredLeaf expression then
    (binding.findInStubs? (node.redirect.getD binding.stubPath)).map
      fun found => found.withRedirect node.redirect
  else none

/-- The node that an outcome leaves where an expression was. -/
def ofOutcome (node : Node) (expression : Expression) : Outcome → Node
  | .value result report =>
      ((((result.withSource report.source).withRedirect (report.redirect <|> node.redirect)
        ).withReplace report.replace).withPreferred
          (report.preferred || expression.isPreferred)).withIssue none
  | .deferred report | .failed report =>
      (node.withValue (.expression expression)).withIssue report.issue

/-- The node that was there or that a stub put there, with its expression evaluated. -/
def evaluateNode (evaluator : Evaluator) (binding : Binding) (node : Node) :
    Except Pause Node :=
  match node.expression? binding.path with
  | none => .ok node
  | some (.error issue) => .ok (node.withIssue (some issue))
  | some (.ok expression) => return ofOutcome node expression (← evaluator binding expression)

def leaf (evaluator : Evaluator) (binding : Binding) (mode : Override) (node : Node) :
    Except Pause Node :=
  evaluateNode evaluator binding ((stubFor? node binding mode).getD node)

/-- After a merge the indices of unnamed entries mean nothing in the stubs. -/
def entryMode (mode : Override) (merged : Bool) (entry : Node) : Override :=
  if merged && entry.name?.isNone then .never else mode

def followRedirect (binding : Binding) : Option (List String) → Binding
  | some path => binding.withStubPath path
  | none => binding

mutual
def visit (evaluator : Evaluator) (binding : Binding) (mode : Override) :
    Node → Except Pause Node
  | .mk (.map fields) annotations => do
      let node : Node := .mk (.map fields) annotations
      let inside := (followRedirect (binding.withSource annotations.source)
        annotations.redirect).withScope fields
      match ← MapPlan.ofFields evaluator inside fields with
      | .replaced entries redirect =>
          return ((node.withValue (.map entries)).withRedirect redirect).withReplace true
      | .fields marker redirect base => do
          let entries ← visitFields evaluator (followRedirect inside redirect)
            (mode.entries annotations.replace base.isSome) marker fields
          return (node.withValue (.map (MapPlan.addBase entries base))).withRedirect redirect
  | .mk (.list entries) annotations => do
      let node : Node := .mk (.list entries) annotations
      let inside := followRedirect (binding.withSource annotations.source) annotations.redirect
      match ← ListPlan.ofEntries evaluator (entries.filterMap Node.name?) inside none false
          entries with
      | .replaced entries redirect =>
          return ((node.withValue (.list entries)).withRedirect redirect).withReplace true
      | .entries steps inside redirect merged => do
          let visited ← visitEntries evaluator inside
            (mode.entries annotations.replace merged) merged 0 steps entries
          return (node.withValue (.list visited)).withRedirect redirect
  | .mk value annotations =>
      leaf evaluator (binding.withSource annotations.source) mode (.mk value annotations)

def visitFields (evaluator : Evaluator) (binding : Binding) (mode : Override)
    (marker : FieldMarker) :
    List (String × Node) → Except Pause (List (String × Node))
  | [] => .ok []
  | (key, field) :: fields =>
      match marker, (key == markerKey) with
      | .dropped, true => visitFields evaluator binding mode marker fields
      | .kept kept, true => do
          return (key, kept) :: (← visitFields evaluator binding mode marker fields)
      | _, _ => do
          let visited ← visit evaluator (binding.withPath key) mode field
          return (key, visited) :: (← visitFields evaluator binding mode marker fields)

/-- The index counts the entries of the new list. -/
def visitEntries (evaluator : Evaluator) (binding : Binding) (mode : Override)
    (merged : Bool) (index : Nat) :
    List EntryStep → List Node → Except Pause (List Node)
  | _, [] => .ok []
  | .splice nodes :: steps, _ :: entries => do
      return nodes ++ (← visitEntries evaluator binding mode merged (index + nodes.length)
        steps entries)
  | .visit :: steps, entry :: entries => do
      let visited ← visit evaluator (binding.withPath (stepName index entry))
        (entryMode mode merged entry) entry
      return visited :: (← visitEntries evaluator binding mode merged (index + 1) steps entries)
  | [], _ :: _ => .ok []
end

/-- A pass over a whole document. -/
def run (answers : Answers) (stubs : List Node) (document : Node) : Except Pause Node :=
  visit (Expression.evaluate Expression.callDepth) { stubs, answers } .expressions document

end Pass

end Stencil
