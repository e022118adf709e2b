import Stencil.Evaluation.Binding
import Stencil.Node.Json

namespace Stencil

/-! Trees that differ in their annotations only. Masking drops the annotations that
nobody looks at; two trees agree when they are equal once both are masked. -/

/-- The annotations that are looked at. Those of a merge, which steer the passes that
follow, stand together. -/
structure Aspects where
  source : Bool
  merging : Bool
  issue : Bool
deriving DecidableEq

namespace Aspects

/-- Nothing but the contents of a tree. -/
def contents : Aspects := ⟨false, false, false⟩

/-- What a pass depends on. -/
def steering : Aspects := ⟨false, true, false⟩

def all : Aspects := ⟨true, true, true⟩

def maskedSource (aspects : Aspects) (source : Option String) : Option String :=
  if aspects.source then source else none

theorem maskedSource_orElse (aspects : Aspects) (first second : Option String) :
    aspects.maskedSource (first <|> second) =
      (aspects.maskedSource first <|> aspects.maskedSource second) := by
  unfold maskedSource
  split <;> rfl

end Aspects

def Annotations.masked (aspects : Aspects) (annotations : Annotations) : Annotations where
  source := aspects.maskedSource annotations.source
  redirect := if aspects.merging then annotations.redirect else none
  replace := aspects.merging && annotations.replace
  preferred := aspects.merging && annotations.preferred
  issue := if aspects.issue then annotations.issue else none

mutual
def Value.masked (aspects : Aspects) : Value → Value
  | .list entries => .list (entriesMasked aspects entries)
  | .map fields => .map (fieldsMasked aspects fields)
  | .lambda parameters body captured =>
      .lambda parameters body (fieldsMasked aspects captured)
  | value => value

def Node.masked (aspects : Aspects) : Node → Node
  | .mk value annotations => .mk (value.masked aspects) (annotations.masked aspects)

def entriesMasked (aspects : Aspects) : List Node → List Node
  | [] => []
  | entry :: entries => entry.masked aspects :: entriesMasked aspects entries

def fieldsMasked (aspects : Aspects) : List (String × Node) → List (String × Node)
  | [] => []
  | (key, field) :: fields => (key, field.masked aspects) :: fieldsMasked aspects fields
end

section
variable (aspects : Aspects)

theorem entriesMasked_eq_map (entries : List Node) :
    entriesMasked aspects entries = entries.map (Node.masked aspects) := by
  induction entries with
  | nil => rfl
  | cons entry entries induction => rw [entriesMasked, induction, List.map_cons]

theorem fieldsMasked_eq_map (fields : List (String × Node)) :
    fieldsMasked aspects fields = fields.map fun (key, field) => (key, field.masked aspects) := by
  induction fields with
  | nil => rfl
  | cons field fields induction => rw [fieldsMasked, induction, List.map_cons]

@[simp] theorem length_fieldsMasked (fields : List (String × Node)) :
    (fieldsMasked aspects fields).length = fields.length := by
  rw [fieldsMasked_eq_map, List.length_map]

/-! With every annotation looked at, masking changes nothing. -/

mutual
theorem Value.masked_all : ∀ value : Value, value.masked .all = value
  | .list entries => by rw [Value.masked, entriesMasked_all entries]
  | .map fields => by rw [Value.masked, fieldsMasked_all fields]
  | .lambda _ _ captured => by rw [Value.masked, fieldsMasked_all captured]
  | .null | .boolean _ | .integer _ | .decimal _ | .text _ | .expression _ => rfl

theorem Node.masked_all : ∀ node : Node, node.masked .all = node
  | .mk value _ => by rw [Node.masked, Value.masked_all value]; rfl

theorem entriesMasked_all : ∀ entries, entriesMasked .all entries = entries
  | [] => rfl
  | entry :: entries => by rw [entriesMasked, entry.masked_all, entriesMasked_all entries]

theorem fieldsMasked_all : ∀ fields, fieldsMasked .all fields = fields
  | [] => rfl
  | (_, field) :: fields => by rw [fieldsMasked, field.masked_all, fieldsMasked_all fields]
end

namespace Value

@[simp] theorem kind_masked (value : Value) : (value.masked aspects).kind = value.kind := by
  cases value <;> rfl

@[simp] theorem isLocallyResolved_masked (value : Value) :
    (value.masked aspects).isLocallyResolved = value.isLocallyResolved := by
  cases value <;> rfl

end Value

namespace Node

@[simp] theorem value_masked (node : Node) :
    (node.masked aspects).value = node.value.masked aspects := by
  cases node; rfl

@[simp] theorem annotations_masked (node : Node) :
    (node.masked aspects).annotations = node.annotations.masked aspects := by
  cases node; rfl

@[simp] theorem kind_masked (node : Node) : (node.masked aspects).kind = node.kind := by
  simp [kind]

@[simp] theorem isLocallyResolved_masked (node : Node) :
    (node.masked aspects).isLocallyResolved = node.isLocallyResolved := by
  simp [isLocallyResolved]

/-- Nothing but the value is left when only contents are looked at. -/
theorem masked_contents_congr {node other : Node} (same : node.value = other.value) :
    node.masked .contents = other.masked .contents := by
  rcases node with ⟨value, annotations⟩
  rcases other with ⟨value', annotations'⟩
  cases same
  rfl

theorem masked_ofSource_congr {source source' : Option String} {value value' : Value}
    (sources : aspects.maskedSource source = aspects.maskedSource source')
    (values : value.masked aspects = value'.masked aspects) :
    (ofSource source value).masked aspects = (ofSource source' value').masked aspects := by
  simp [ofSource, masked, Annotations.masked, sources, values]

end Node

mutual
@[simp] theorem Value.isResolved_masked :
    ∀ value : Value, (value.masked aspects).isResolved = value.isResolved
  | .list entries => entriesResolved_masked entries
  | .map fields => fieldsResolved_masked fields
  | .null | .boolean _ | .integer _ | .decimal _ | .text _ | .expression _ | .lambda _ _ _ => rfl

@[simp] theorem Node.isResolved_masked :
    ∀ node : Node, (node.masked aspects).isResolved = node.isResolved
  | .mk value _ => value.isResolved_masked

theorem entriesResolved_masked :
    ∀ entries, entriesResolved (entriesMasked aspects entries) = entriesResolved entries
  | [] => rfl
  | entry :: entries => by
      rw [entriesMasked, entriesResolved, entriesResolved, entry.isResolved_masked,
        entriesResolved_masked entries]

theorem fieldsResolved_masked :
    ∀ fields, fieldsResolved (fieldsMasked aspects fields) = fieldsResolved fields
  | [] => rfl
  | (_, field) :: fields => by
      rw [fieldsMasked, fieldsResolved, fieldsResolved, field.isResolved_masked,
        fieldsResolved_masked fields]
end

/-! Looking up. -/

@[simp] theorem lookup_fieldsMasked (key : String) (fields : List (String × Node)) :
    (fieldsMasked aspects fields).lookup key = (fields.lookup key).map (Node.masked aspects) := by
  induction fields with
  | nil => rfl
  | cons field fields induction =>
      rcases field with ⟨first, node⟩
      rw [fieldsMasked, List.lookup_cons, List.lookup_cons]
      cases key == first with
      | true => rfl
      | false => exact induction

namespace Node

@[simp] theorem get?_masked (node : Node) (key : String) :
    (node.masked aspects).get? key = (node.get? key).map (masked aspects) := by
  rcases node with ⟨value, annotations⟩
  cases value with
  | map fields => exact lookup_fieldsMasked aspects key fields
  | _ => rfl

@[simp] theorem findText?_masked (node : Node) (key : String) :
    (node.masked aspects).findText? key = node.findText? key := by
  unfold findText?
  rw [get?_masked]
  cases node.get? key with
  | none => rfl
  | some found =>
      rcases found with ⟨value, annotations⟩
      cases value <;> rfl

@[simp] theorem name?_masked (node : Node) : (node.masked aspects).name? = node.name? :=
  findText?_masked aspects node "name"

end Node

@[simp] theorem stepName_masked (index : Nat) (entry : Node) :
    stepName index (entry.masked aspects) = stepName index entry := by
  simp [stepName]

/-! Tables keep their order. -/

theorem putSorted_masked (key : String) (value : Node) (table : List (String × Node)) :
    fieldsMasked aspects (Table.putSorted key value table) =
      Table.putSorted key (value.masked aspects) (fieldsMasked aspects table) := by
  induction table with
  | nil => rfl
  | cons entry rest induction =>
      rcases entry with ⟨other, old⟩
      simp only [Table.putSorted, fieldsMasked]
      split
      · rfl
      · split
        · rfl
        · rw [fieldsMasked, induction]

theorem mergeSorted_masked (table entries : List (String × Node)) :
    fieldsMasked aspects (Table.mergeSorted table entries) =
      Table.mergeSorted (fieldsMasked aspects table) (fieldsMasked aspects entries) := by
  induction entries generalizing table with
  | nil => rfl
  | cons entry rest induction =>
      rcases entry with ⟨key, value⟩
      have later := induction (Table.putSorted key value table)
      rw [putSorted_masked] at later
      exact later

theorem put_masked (key : String) (value : Node) (table : List (String × Node)) :
    fieldsMasked aspects (Table.put key value table) =
      Table.put key (value.masked aspects) (fieldsMasked aspects table) := by
  induction table with
  | nil => rfl
  | cons entry rest induction =>
      rcases entry with ⟨other, old⟩
      simp only [Table.put, fieldsMasked]
      split
      · rfl
      · rw [fieldsMasked, induction]

theorem ofList_masked (entries : List (String × Node)) :
    fieldsMasked aspects (Table.ofList entries) =
      Table.ofList (fieldsMasked aspects entries) := by
  have from_table : ∀ table : List (String × Node),
      fieldsMasked aspects
          (entries.foldl (fun table (key, value) => Table.put key value table) table) =
        (fieldsMasked aspects entries).foldl (fun table (key, value) => Table.put key value table)
          (fieldsMasked aspects table) := by
    induction entries with
    | nil => intro table; rfl
    | cons entry rest induction =>
        intro table
        rcases entry with ⟨key, value⟩
        have later := induction (Table.put key value table)
        rw [put_masked] at later
        exact later
  exact from_table []

theorem zip_masked (names : List String) (entries : List Node) :
    fieldsMasked aspects (names.zip entries) =
      names.zip (entries.map (Node.masked aspects)) := by
  induction names generalizing entries with
  | nil => rfl
  | cons name names induction =>
      cases entries with
      | nil => rfl
      | cons entry entries => simp only [List.zip_cons_cons, fieldsMasked, List.map_cons, induction]

def Lookup.masked : Lookup → Lookup
  | .found node => .found (node.masked aspects)
  | stopped => stopped

namespace Node

theorem listEntry_masked (entries : List Node) (step : String) :
    listEntry (entriesMasked aspects entries) step =
      (listEntry entries step).map (masked aspects) := by
  unfold listEntry
  rw [entriesMasked_eq_map]
  cases indexOf? step with
  | some index => exact List.getElem?_map
  | none =>
      have names : (fun entry => decide (entry.name? = some step)) ∘ masked aspects =
          fun entry => decide (entry.name? = some step) := by
        funext entry
        rw [Function.comp_apply, name?_masked]
      rw [List.find?_map, names]

theorem child_masked (node : Node) (step : String) :
    (node.masked aspects).child step = (node.child step).masked aspects := by
  rcases node with ⟨value, annotations⟩
  unfold child
  rw [isLocallyResolved_masked]
  split
  · rfl
  · cases value with
    | map fields =>
        simp only [masked, value_mk, Value.masked, lookup_fieldsMasked]
        cases fields.lookup step with
        | some field => rfl
        | none =>
            cases fields.lookup markerKey with
            | none => rfl
            | some marker =>
                simp only [Option.map_none, Option.map_some, isResolved_masked]
                split <;> rfl
    | list entries =>
        simp only [masked, value_mk, Value.masked, listEntry_masked]
        cases listEntry entries step <;> rfl
    | _ => rfl

theorem find_masked (node : Node) (path : List String) :
    (node.masked aspects).find path = (node.find path).masked aspects := by
  induction path generalizing node with
  | nil => rfl
  | cons step rest induction =>
      rw [find, find, child_masked]
      cases node.child step with
      | found next => exact induction next
      | unresolved => rfl
      | missing => rfl

end Node

/-! Comparisons see no annotations, nor do written forms. -/

mutual
@[simp] theorem Value.same_masked : ∀ left right : Value,
    (left.masked aspects).same (right.masked aspects) = left.same right
  | .list left, right => by
      cases right with
      | list right => exact sameEntries_masked left right
      | _ => rfl
  | .map left, right => by
      cases right with
      | map right =>
          simp [Value.masked, Value.same, sameFields_masked left right]
      | _ => rfl
  | .lambda _ _ left, right => by
      cases right with
      | lambda _ _ right => simp [Value.masked, Value.same, sameCaptured_masked left right]
      | _ => rfl
  | .null, right | .boolean _, right | .integer _, right | .decimal _, right | .text _, right
  | .expression _, right => by cases right <;> rfl

@[simp] theorem Node.same_masked : ∀ left right : Node,
    (left.masked aspects).same (right.masked aspects) = left.same right
  | .mk left _, .mk right _ => left.same_masked right

theorem sameEntries_masked : ∀ left right,
    sameEntries (entriesMasked aspects left) (entriesMasked aspects right) = sameEntries left right
  | [], [] | [], _ :: _ | _ :: _, [] => rfl
  | left :: lefts, right :: rights => by
      simp only [entriesMasked, sameEntries, left.same_masked, sameEntries_masked lefts rights]

theorem sameFields_masked : ∀ left right,
    sameFields (fieldsMasked aspects left) (fieldsMasked aspects right) = sameFields left right
  | [], _ => rfl
  | (key, left) :: lefts, rights => by
      simp only [fieldsMasked, sameFields, lookup_fieldsMasked, sameFields_masked lefts rights]
      cases rights.lookup key with
      | none => rfl
      | some right => simp only [Option.map_some, left.same_masked right]

theorem sameCaptured_masked : ∀ left right,
    sameCaptured (fieldsMasked aspects left) (fieldsMasked aspects right)
      = sameCaptured left right
  | [], [] | [], _ :: _ | _ :: _, [] => rfl
  | (_, left) :: lefts, (_, right) :: rights => by
      simp only [fieldsMasked, sameCaptured, left.same_masked, sameCaptured_masked lefts rights]
end

mutual
@[simp] theorem Value.equivalent_masked : ∀ left right : Value,
    (left.masked aspects).equivalent (right.masked aspects) = left.equivalent right
  | .list left, right => by
      cases right with
      | list right =>
          simp only [Value.masked, Value.equivalent, entriesByName_masked left right,
            entriesInOrder_masked left right]
          simp [entriesMasked_eq_map, Function.comp_def]
      | _ => rfl
  | .map left, right => by
      cases right with
      | map right =>
          simp [Value.masked, Value.equivalent, fieldsEquivalent_masked left right]
      | _ => rfl
  | .lambda _ _ left, right => by
      cases right with
      | lambda _ _ right => exact Value.same_masked aspects (.lambda _ _ left) (.lambda _ _ right)
      | _ => rfl
  | .null, right | .boolean _, right | .integer _, right | .decimal _, right | .text _, right
  | .expression _, right => by cases right <;> rfl

theorem Node.equivalent_masked : ∀ left right : Node,
    (left.masked aspects).equivalent (right.masked aspects) = left.equivalent right
  | .mk left _, .mk right _ => left.equivalent_masked right

theorem entriesByName_masked : ∀ left right,
    entriesByName (entriesMasked aspects left) (entriesMasked aspects right)
      = entriesByName left right
  | [], _ => rfl
  | left :: lefts, rights => by
      simp only [entriesMasked, entriesByName, entriesByName_masked lefts rights, Node.name?_masked]
      rw [entriesMasked_eq_map, List.find?_map]
      simp only [Function.comp_def, Node.name?_masked]
      cases rights.find? fun right => right.name? = left.name? with
      | none => rfl
      | some right => simp only [Option.map_some, left.equivalent_masked right]

theorem entriesInOrder_masked : ∀ left right,
    entriesInOrder (entriesMasked aspects left) (entriesMasked aspects right)
      = entriesInOrder left right
  | [], _ | _ :: _, [] => rfl
  | left :: lefts, right :: rights => by
      simp only [entriesMasked, entriesInOrder, left.equivalent_masked,
        entriesInOrder_masked lefts rights]

theorem fieldsEquivalent_masked : ∀ left right,
    fieldsEquivalent (fieldsMasked aspects left) (fieldsMasked aspects right)
      = fieldsEquivalent left right
  | [], _ => rfl
  | (key, left) :: lefts, rights => by
      simp only [fieldsMasked, fieldsEquivalent, lookup_fieldsMasked,
        fieldsEquivalent_masked lefts rights]
      cases rights.lookup key with
      | none => rfl
      | some right => simp only [Option.map_some, left.equivalent_masked right]
end

mutual
@[simp] theorem Value.json_masked : ∀ value : Value, (value.masked aspects).json = value.json
  | .list entries => by rw [Value.masked, Value.json, Value.json, entriesJson_masked entries]
  | .map fields => by rw [Value.masked, Value.json, Value.json, fieldsJson_masked fields]
  | .null | .boolean _ | .integer _ | .decimal _ | .text _ | .expression _ | .lambda _ _ _ => rfl

theorem Node.json_masked : ∀ node : Node, (node.masked aspects).json = node.json
  | .mk value _ => value.json_masked

theorem entriesJson_masked : ∀ entries,
    entriesJson (entriesMasked aspects entries) = entriesJson entries
  | [] => rfl
  | [entry] => entry.json_masked
  | entry :: other :: entries => by
      have rest := entriesJson_masked (other :: entries)
      simp only [entriesMasked, entriesJson, entry.json_masked] at rest ⊢
      rw [rest]

theorem fieldsJson_masked : ∀ fields,
    fieldsJson (fieldsMasked aspects fields) = fieldsJson fields
  | [] => rfl
  | [(_, field)] => by simp only [fieldsMasked, fieldsJson, field.json_masked]
  | (_, field) :: other :: fields => by
      have rest := fieldsJson_masked (other :: fields)
      simp only [fieldsMasked, fieldsJson, field.json_masked] at rest ⊢
      rw [rest]
end

end

end Stencil
