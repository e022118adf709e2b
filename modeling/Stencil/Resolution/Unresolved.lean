import Stencil.Node.Place

namespace Stencil

/-! Nodes that are still expressions when a document does not change any more. -/

structure UnresolvedNode where
  expression : String
  source : Option String
  place : Place
  issue : Option Issue
deriving DecidableEq

namespace UnresolvedNode

/-- The expression between its parentheses, or the text that could not be read. -/
def expressionText : Value → String
  | .expression expression => expression.printEmbedded
  | .text text => text
  | value => value.kind.name

def text (node : UnresolvedNode) : String :=
  node.expression ++ "\tin " ++ node.source.getD "-" ++ "\t" ++ node.place.text
    ++ (match node.issue with
      | some issue => "\t" ++ issue.message
      | none => "")

/-- What is shown of all unresolved nodes together. -/
def listText (nodes : List UnresolvedNode) : String :=
  "unresolved nodes:" ++ String.join (nodes.map fun node => "\n\t" ++ node.text)

end UnresolvedNode

namespace Node

/-- The nodes that are not resolved, in the order of the document. -/
def unresolved (document : Node) : List UnresolvedNode :=
  document.places.filterMap fun (place, node) =>
    if node.isLocallyResolved then none
    else some ⟨UnresolvedNode.expressionText node.value, node.source, place, node.issue⟩

end Node

end Stencil
