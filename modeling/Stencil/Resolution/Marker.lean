import Stencil.Evaluation.Evaluate

namespace Stencil

/-! Expressions that stand in a document, as such or embedded in a text. -/

namespace Node

/-- The expression at a node; nothing where a plain value stands. A text whose
source cannot be read holds an issue instead. -/
def expression? (node : Node) (place : List String) : Option (Except Issue Expression) :=
  match node.value with
  | .expression expression => some (.ok expression)
  | .text text =>
      (Text.embedded? text).map fun source =>
        match Expression.parse source place with
        | .ok expression => .ok expression
        | .error error => .error (.unparseable error)
  | _ => none

end Node

/-! The marker key `<<` asks for the entries of another collection. -/

inductive Marker where
  /-- The entries of `base` go into the collection around the marker, or replace it. -/
  | merge (base : Node) (redirect : Option (List String)) (replace : Bool)
  /-- There is nothing to merge, and the marker goes away. -/
  | drop
  /-- The marker stays for another pass. -/
  | keep (marker : Node)
  /-- The marker holds no expression: an ordinary key. -/
  | literal

namespace Marker

/-- A plain `merge` that no stub answers merges nothing. -/
def isPlainMerge : Expression → Bool
  | .merge _ redirected _ => !redirected
  | _ => false

def ofOutcome (marker : Node) (expression : Expression) : Outcome → Marker
  | .value base report => .merge base report.redirect report.replace
  | .deferred report => .keep ((marker.withValue (.expression expression)).withIssue report.issue)
  | .failed report =>
      if isPlainMerge expression then .drop
      else .keep ((marker.withValue (.expression expression)).withIssue report.issue)

def evaluate (evaluator : Evaluator) (binding : Binding) (marker : Node) :
    Except Pause Marker :=
  match marker.expression? binding.path with
  | none => .ok .literal
  | some (.error issue) => .ok (.keep (marker.withIssue (some issue)))
  | some (.ok expression) => do
      return ofOutcome marker expression (← evaluator binding expression)

end Marker

/-! What a map does about its marker before its fields are visited. -/

inductive FieldMarker where
  | ordinary
  | dropped
  | kept (marker : Node)

inductive MapPlan where
  | replaced (fields : List (String × Node)) (redirect : Option (List String))
  | fields (marker : FieldMarker) (redirect : Option (List String))
      (base : Option (List (String × Node)))

namespace MapPlan

def ofMarker (node : Node) : Marker → MapPlan
  | .literal => .fields .ordinary none none
  | .drop => .fields .dropped none none
  | .keep marker => .fields (.kept marker) none none
  | .merge base redirect replace =>
      match base.value with
      | .map entries =>
          if replace then .replaced entries redirect
          else .fields .dropped redirect (some entries)
      | other => .fields (.kept (node.withIssue (some (.mapMerge other.kind)))) none none

/-- The binding is the one inside the map. -/
def ofFields (evaluator : Evaluator) (binding : Binding) (fields : List (String × Node)) :
    Except Pause MapPlan :=
  match fields.lookup markerKey with
  | none => .ok (.fields .ordinary none none)
  | some marker => return ofMarker marker (← Marker.evaluate evaluator binding marker)

/-- The fields of the base under other keys go behind those of the map. -/
def addBase (fields : List (String × Node)) : Option (List (String × Node)) → List (String × Node)
  | none => fields
  | some base =>
      fields ++ base.filter fun (key, _) => key != markerKey && (fields.lookup key).isNone

end MapPlan

/-! What a list does about the markers among its entries before any entry is
visited. -/

/-- The marker of an entry that is a map with nothing else in it. -/
def listMarker? (entry : Node) : Option Node :=
  match entry.value with
  | .map [(key, marker)] => if key = markerKey then some marker else none
  | _ => none

/-- Stub entries without a name, or with a name that the list does not have. -/
def newEntries (names : List String) (entries : List Node) : List Node :=
  entries.filter fun entry => match entry.name? with
    | some name => !names.contains name
    | none => true

/-- One step per entry of the list. -/
inductive EntryStep where
  | visit
  /-- These nodes take the place of the entry, and are not visited. -/
  | splice (nodes : List Node)

inductive ListPlan where
  | replaced (entries : List Node) (redirect : Option (List String))
  | entries (steps : List EntryStep) (binding : Binding) (redirect : Option (List String))
      (merged : Bool)

namespace ListPlan

/-- An entry that keeps its marker. -/
def keptEntry (entry marker : Node) : EntryStep :=
  .splice [entry.withValue (.map [(markerKey, marker)])]

def addStep (step : EntryStep) : ListPlan → ListPlan
  | .entries steps binding redirect merged => .entries (step :: steps) binding redirect merged
  | plan => plan

/-- The entries one after the other. A redirected merge moves the stub path for all
that come later and for the visits of all entries; the redirect of the list is the
first one. -/
def ofEntries (evaluator : Evaluator) (names : List String) (binding : Binding)
    (redirect : Option (List String)) (merged : Bool) : List Node → Except Pause ListPlan
  | [] => .ok (.entries [] binding redirect merged)
  | entry :: rest =>
      match listMarker? entry with
      | none => return (← ofEntries evaluator names binding redirect merged rest).addStep .visit
      | some marker => do
          match ← Marker.evaluate evaluator binding marker with
          | .literal =>
              return (← ofEntries evaluator names binding redirect merged rest).addStep .visit
          | .drop =>
              return (← ofEntries evaluator names binding redirect merged rest).addStep (.splice [])
          | .keep kept =>
              return (← ofEntries evaluator names binding redirect merged rest).addStep
                (keptEntry entry kept)
          | .merge base moved replace =>
              match base.value with
              | .list added =>
                  if replace then return .replaced added moved
                  else do
                    let binding := match moved with
                      | some path => binding.withStubPath path
                      | none => binding
                    return (← ofEntries evaluator names binding (redirect <|> moved) true
                      rest).addStep (.splice (newEntries names added))
              | other =>
                  let kept := marker.withIssue (some (.listMerge other.kind))
                  return (← ofEntries evaluator names binding redirect merged rest).addStep
                    (keptEntry entry kept)

end ListPlan

end Stencil
