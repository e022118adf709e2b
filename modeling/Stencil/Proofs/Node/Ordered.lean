import Stencil.Proofs.Node.Equality

namespace Stencil

/-! Trees with the fields of all maps in the order of their keys. Trees that become the same
one differ in the order of keys only, and nothing but the written form of a map shows it. -/

mutual
def Value.ordered : Value → Value
  | .list entries => .list (entriesOrdered entries)
  | .map fields => .map (Table.sorted (fieldsOrdered fields))
  | .lambda parameters body captured => .lambda parameters body (fieldsOrdered captured)
  | value => value

def Node.ordered : Node → Node
  | .mk value annotations => .mk value.ordered annotations

def entriesOrdered : List Node → List Node
  | [] => []
  | entry :: entries => entry.ordered :: entriesOrdered entries

/-- The fields themselves stay in their order. -/
def fieldsOrdered : List (String × Node) → List (String × Node)
  | [] => []
  | (key, field) :: fields => (key, field.ordered) :: fieldsOrdered fields
end

/-- The fields of a map in the order of their keys. -/
def tableOrdered (fields : List (String × Node)) : List (String × Node) :=
  Table.sorted (fieldsOrdered fields)

theorem Value.ordered_map (fields : List (String × Node)) :
    (map fields).ordered = .map (tableOrdered fields) := rfl

theorem entriesOrdered_eq_map (entries : List Node) :
    entriesOrdered entries = entries.map Node.ordered := by
  induction entries with
  | nil => rfl
  | cons entry entries induction => rw [entriesOrdered, induction, List.map_cons]

theorem fieldsOrdered_eq_map (fields : List (String × Node)) :
    fieldsOrdered fields = fields.map fun field => (field.1, field.2.ordered) := by
  induction fields with
  | nil => rfl
  | cons field fields induction => rw [fieldsOrdered, induction, List.map_cons]

@[simp] theorem length_tableOrdered (fields : List (String × Node)) :
    (tableOrdered fields).length = fields.length := by
  rw [tableOrdered, Table.length_sorted, fieldsOrdered_eq_map, List.length_map]

theorem fieldsOrdered_sorted (fields : List (String × Node)) :
    fieldsOrdered (Table.sorted fields) = Table.sorted (fieldsOrdered fields) := by
  rw [fieldsOrdered_eq_map, fieldsOrdered_eq_map, Table.map_sorted]

mutual
@[simp] theorem Value.ordered_ordered : ∀ value : Value, value.ordered.ordered = value.ordered
  | .list entries => by rw [Value.ordered, Value.ordered, entriesOrdered_ordered entries]
  | .map fields => by
      rw [Value.ordered, Value.ordered, fieldsOrdered_sorted, fieldsOrdered_ordered fields,
        Table.sorted_sorted]
  | .lambda _ _ captured => by rw [Value.ordered, Value.ordered, fieldsOrdered_ordered captured]
  | .null | .boolean _ | .integer _ | .decimal _ | .text _ | .expression _ => rfl

@[simp] theorem Node.ordered_ordered : ∀ node : Node, node.ordered.ordered = node.ordered
  | .mk value _ => by rw [Node.ordered, Node.ordered, value.ordered_ordered]

theorem entriesOrdered_ordered :
    ∀ entries, entriesOrdered (entriesOrdered entries) = entriesOrdered entries
  | [] => rfl
  | entry :: entries => by
      rw [entriesOrdered, entriesOrdered, entry.ordered_ordered, entriesOrdered_ordered entries]

theorem fieldsOrdered_ordered :
    ∀ fields, fieldsOrdered (fieldsOrdered fields) = fieldsOrdered fields
  | [] => rfl
  | (_, field) :: fields => by
      rw [fieldsOrdered, fieldsOrdered, field.ordered_ordered, fieldsOrdered_ordered fields]
end

namespace Value

@[simp] theorem kind_ordered (value : Value) : value.ordered.kind = value.kind := by
  cases value <;> rfl

@[simp] theorem truthy_ordered (value : Value) : value.ordered.truthy = value.truthy := by
  cases value with
  | list entries => cases entries <;> rfl
  | map fields =>
      change (!(tableOrdered fields).isEmpty) = !fields.isEmpty
      rw [Bool.eq_iff_iff]
      simp [← List.length_eq_zero_iff]
  | _ => rfl

@[simp] theorem isLocallyResolved_ordered (value : Value) :
    value.ordered.isLocallyResolved = value.isLocallyResolved := by
  cases value <;> rfl

end Value

namespace Node

@[simp] theorem value_ordered (node : Node) : node.ordered.value = node.value.ordered := by
  cases node; rfl

@[simp] theorem annotations_ordered (node : Node) :
    node.ordered.annotations = node.annotations := by
  cases node; rfl

@[simp] theorem kind_ordered (node : Node) : node.ordered.kind = node.kind := by
  simp [kind]

@[simp] theorem isLocallyResolved_ordered (node : Node) :
    node.ordered.isLocallyResolved = node.isLocallyResolved := by
  simp [isLocallyResolved]

end Node

mutual
@[simp] theorem Value.isResolved_ordered :
    ∀ value : Value, value.ordered.isResolved = value.isResolved
  | .list entries => entriesResolved_ordered entries
  | .map fields => by
      have same := fieldsResolved_ordered fields
      rw [Bool.eq_iff_iff, fieldsResolved_iff] at same
      rw [Bool.eq_iff_iff]
      change fieldsResolved (tableOrdered fields) ↔ fieldsResolved fields
      rw [← same, fieldsResolved_iff]
      simp only [tableOrdered, Table.mem_sorted]
  | .null | .boolean _ | .integer _ | .decimal _ | .text _ | .expression _ | .lambda _ _ _ => rfl

@[simp] theorem Node.isResolved_ordered :
    ∀ node : Node, node.ordered.isResolved = node.isResolved
  | .mk value _ => value.isResolved_ordered

theorem entriesResolved_ordered :
    ∀ entries, entriesResolved (entriesOrdered entries) = entriesResolved entries
  | [] => rfl
  | entry :: entries => by
      rw [entriesOrdered, entriesResolved, entriesResolved, entry.isResolved_ordered,
        entriesResolved_ordered entries]

theorem fieldsResolved_ordered :
    ∀ fields, fieldsResolved (fieldsOrdered fields) = fieldsResolved fields
  | [] => rfl
  | (_, field) :: fields => by
      rw [fieldsOrdered, fieldsResolved, fieldsResolved, field.isResolved_ordered,
        fieldsResolved_ordered fields]
end

/-! ## Looking up -/

@[simp] theorem lookup_fieldsOrdered (key : String) (fields : List (String × Node)) :
    (fieldsOrdered fields).lookup key = (fields.lookup key).map Node.ordered := by
  induction fields with
  | nil => rfl
  | cons field fields induction =>
      rcases field with ⟨first, node⟩
      rw [fieldsOrdered, List.lookup_cons, List.lookup_cons]
      cases key == first with
      | true => rfl
      | false => exact induction

@[simp] theorem lookup_tableOrdered (key : String) (fields : List (String × Node)) :
    (tableOrdered fields).lookup key = (fields.lookup key).map Node.ordered := by
  rw [tableOrdered, Table.lookup_sorted, lookup_fieldsOrdered]

namespace Node

@[simp] theorem get?_ordered (node : Node) (key : String) :
    node.ordered.get? key = (node.get? key).map ordered := by
  rcases node with ⟨value, annotations⟩
  cases value with
  | map fields => exact lookup_tableOrdered key fields
  | _ => rfl

@[simp] theorem findText?_ordered (node : Node) (key : String) :
    node.ordered.findText? key = node.findText? key := by
  unfold findText?
  rw [get?_ordered]
  cases node.get? key with
  | none => rfl
  | some found =>
      rcases found with ⟨value, annotations⟩
      cases value <;> rfl

@[simp] theorem name?_ordered (node : Node) : node.ordered.name? = node.name? :=
  findText?_ordered node "name"

end Node

@[simp] theorem stepName_ordered (index : Nat) (entry : Node) :
    stepName index entry.ordered = stepName index entry := by
  simp [stepName]

def Lookup.ordered : Lookup → Lookup
  | .found node => .found node.ordered
  | stopped => stopped

namespace Node

theorem listEntry_ordered (entries : List Node) (step : String) :
    listEntry (entriesOrdered entries) step = (listEntry entries step).map ordered := by
  unfold listEntry
  rw [entriesOrdered_eq_map]
  cases indexOf? step with
  | some index => exact List.getElem?_map
  | none =>
      have names : (fun entry => decide (entry.name? = some step)) ∘ ordered =
          fun entry => decide (entry.name? = some step) := by
        funext entry
        rw [Function.comp_apply, name?_ordered]
      rw [List.find?_map, names]

theorem child_ordered (node : Node) (step : String) :
    node.ordered.child step = (node.child step).ordered := by
  rcases node with ⟨value, annotations⟩
  unfold child
  rw [isLocallyResolved_ordered]
  split
  · rfl
  · cases value with
    | map fields =>
        simp only [ordered, value_mk, Value.ordered_map, lookup_tableOrdered]
        cases fields.lookup step with
        | some field => rfl
        | none =>
            cases fields.lookup markerKey with
            | none => rfl
            | some marker =>
                simp only [Option.map_none, Option.map_some, isResolved_ordered]
                split <;> rfl
    | list entries =>
        simp only [ordered, value_mk, Value.ordered, listEntry_ordered]
        cases listEntry entries step <;> rfl
    | _ => rfl

theorem find_ordered (node : Node) (path : List String) :
    node.ordered.find path = (node.find path).ordered := by
  induction path generalizing node with
  | nil => rfl
  | cons step rest induction =>
      rw [find, find, child_ordered]
      cases node.child step with
      | found next => exact induction next
      | unresolved => rfl
      | missing => rfl

end Node

/-! ## Comparisons -/

theorem fieldsEquivalent_iff {lefts rights : List (String × Node)} :
    fieldsEquivalent lefts rights ↔ ∀ field ∈ lefts,
      ∃ right, rights.lookup field.1 = some right ∧ field.2.equivalent right := by
  induction lefts with
  | nil => simp [fieldsEquivalent]
  | cons field lefts induction =>
      rcases field with ⟨key, left⟩
      rw [fieldsEquivalent, Bool.and_eq_true, induction, List.forall_mem_cons]
      cases rights.lookup key <;> simp

theorem sameFields_sorted (lefts rights : List (String × Node)) :
    sameFields (Table.sorted lefts) rights = sameFields lefts rights := by
  rw [Bool.eq_iff_iff, sameFields_iff, sameFields_iff]
  simp only [Table.mem_sorted]

theorem fieldsEquivalent_sorted (lefts rights : List (String × Node)) :
    fieldsEquivalent (Table.sorted lefts) rights = fieldsEquivalent lefts rights := by
  rw [Bool.eq_iff_iff, fieldsEquivalent_iff, fieldsEquivalent_iff]
  simp only [Table.mem_sorted]

mutual
@[simp] theorem Value.same_ordered : ∀ left right : Value,
    left.ordered.same right.ordered = left.same right
  | .list left, right => by
      cases right with
      | list right => exact sameEntries_ordered left right
      | _ => rfl
  | .map left, right => by
      cases right with
      | map right =>
          change ((tableOrdered left).length == (tableOrdered right).length
            && sameFields (tableOrdered left) (tableOrdered right)) = _
          rw [length_tableOrdered, length_tableOrdered, tableOrdered, sameFields_sorted,
            sameFields_ordered left right]
          rfl
      | _ => rfl
  | .lambda _ _ left, right => by
      cases right with
      | lambda _ _ right => simp [Value.ordered, Value.same, sameCaptured_ordered left right]
      | _ => rfl
  | .null, right | .boolean _, right | .integer _, right | .decimal _, right | .text _, right
  | .expression _, right => by cases right <;> rfl

@[simp] theorem Node.same_ordered : ∀ left right : Node,
    left.ordered.same right.ordered = left.same right
  | .mk left _, .mk right _ => left.same_ordered right

theorem sameEntries_ordered : ∀ left right,
    sameEntries (entriesOrdered left) (entriesOrdered right) = sameEntries left right
  | [], [] | [], _ :: _ | _ :: _, [] => rfl
  | left :: lefts, right :: rights => by
      simp only [entriesOrdered, sameEntries, left.same_ordered, sameEntries_ordered lefts rights]

theorem sameFields_ordered : ∀ left right,
    sameFields (fieldsOrdered left) (tableOrdered right) = sameFields left right
  | [], _ => rfl
  | (key, left) :: lefts, rights => by
      simp only [fieldsOrdered, sameFields, lookup_tableOrdered, sameFields_ordered lefts rights]
      cases rights.lookup key with
      | none => rfl
      | some right => simp only [Option.map_some, left.same_ordered right]

theorem sameCaptured_ordered : ∀ left right,
    sameCaptured (fieldsOrdered left) (fieldsOrdered right) = sameCaptured left right
  | [], [] | [], _ :: _ | _ :: _, [] => rfl
  | (_, left) :: lefts, (_, right) :: rights => by
      simp only [fieldsOrdered, sameCaptured, left.same_ordered, sameCaptured_ordered lefts rights]
end

mutual
@[simp] theorem Value.equivalent_ordered : ∀ left right : Value,
    left.ordered.equivalent right.ordered = left.equivalent right
  | .list left, right => by
      cases right with
      | list right =>
          simp only [Value.ordered, Value.equivalent, entriesByName_ordered left right,
            entriesInOrder_ordered left right]
          simp [entriesOrdered_eq_map, Function.comp_def]
      | _ => rfl
  | .map left, right => by
      cases right with
      | map right =>
          change ((tableOrdered left).length == (tableOrdered right).length
            && fieldsEquivalent (tableOrdered left) (tableOrdered right)) = _
          rw [length_tableOrdered, length_tableOrdered, tableOrdered, fieldsEquivalent_sorted,
            fieldsEquivalent_ordered left right]
          rfl
      | _ => rfl
  | .lambda _ _ left, right => by
      cases right with
      | lambda _ _ right => exact Value.same_ordered (.lambda _ _ left) (.lambda _ _ right)
      | _ => rfl
  | .null, right | .boolean _, right | .integer _, right | .decimal _, right | .text _, right
  | .expression _, right => by cases right <;> rfl

theorem Node.equivalent_ordered : ∀ left right : Node,
    left.ordered.equivalent right.ordered = left.equivalent right
  | .mk left _, .mk right _ => left.equivalent_ordered right

theorem entriesByName_ordered : ∀ left right,
    entriesByName (entriesOrdered left) (entriesOrdered right) = entriesByName left right
  | [], _ => rfl
  | left :: lefts, rights => by
      simp only [entriesOrdered, entriesByName, entriesByName_ordered lefts rights,
        Node.name?_ordered]
      rw [entriesOrdered_eq_map, List.find?_map]
      simp only [Function.comp_def, Node.name?_ordered]
      cases rights.find? fun right => right.name? = left.name? with
      | none => rfl
      | some right => simp only [Option.map_some, left.equivalent_ordered right]

theorem entriesInOrder_ordered : ∀ left right,
    entriesInOrder (entriesOrdered left) (entriesOrdered right) = entriesInOrder left right
  | [], _ | _ :: _, [] => rfl
  | left :: lefts, right :: rights => by
      simp only [entriesOrdered, entriesInOrder, left.equivalent_ordered,
        entriesInOrder_ordered lefts rights]

theorem fieldsEquivalent_ordered : ∀ left right,
    fieldsEquivalent (fieldsOrdered left) (tableOrdered right) = fieldsEquivalent left right
  | [], _ => rfl
  | (key, left) :: lefts, rights => by
      simp only [fieldsOrdered, fieldsEquivalent, lookup_tableOrdered,
        fieldsEquivalent_ordered lefts rights]
      cases rights.lookup key with
      | none => rfl
      | some right => simp only [Option.map_some, left.equivalent_ordered right]
end

/-! ## Tables that are put together in order -/

theorem putSorted_ordered (key : String) (value : Node) (table : List (String × Node)) :
    fieldsOrdered (Table.putSorted key value table) =
      Table.putSorted key value.ordered (fieldsOrdered table) := by
  induction table with
  | nil => rfl
  | cons entry rest induction =>
      rcases entry with ⟨other, old⟩
      simp only [Table.putSorted, fieldsOrdered]
      split
      · rfl
      · split
        · rfl
        · rw [fieldsOrdered, induction]

theorem mergeSorted_ordered (table entries : List (String × Node)) :
    fieldsOrdered (Table.mergeSorted table entries) =
      Table.mergeSorted (fieldsOrdered table) (fieldsOrdered entries) := by
  induction entries generalizing table with
  | nil => rfl
  | cons entry rest induction =>
      rcases entry with ⟨key, value⟩
      have later := induction (Table.putSorted key value table)
      rw [putSorted_ordered] at later
      exact later

theorem zip_ordered (names : List String) (entries : List Node) :
    fieldsOrdered (names.zip entries) = names.zip (entries.map Node.ordered) := by
  induction names generalizing entries with
  | nil => rfl
  | cons name names induction =>
      cases entries with
      | nil => rfl
      | cons entry entries => simp only [List.zip_cons_cons, fieldsOrdered, List.map_cons, induction]

end Stencil
