import Stencil.Proofs.Node.Percent

namespace Stencil

/-! Nodes that differ in the order of keys only and in which no percent sign stands. What is
found in them, and what is put together from them, differs in the order of keys only. -/

structure Value.Reordered (value value' : Value) : Prop where
  same : value.ordered = value'.ordered
  free : value.withoutPercent

structure Node.Reordered (node node' : Node) : Prop where
  same : node.ordered = node'.ordered
  free : node.withoutPercent

abbrev NodesReordered : List Node → List Node → Prop := List.Forall₂ Node.Reordered

/-- The fields of maps. -/
structure FieldsReordered (fields fields' : List (String × Node)) : Prop where
  same : tableOrdered fields = tableOrdered fields'
  free : fieldsWithoutPercent fields

/-- Local names, which have the same order. -/
structure NamesReordered (names names' : List (String × Node)) : Prop where
  same : fieldsOrdered names = fieldsOrdered names'
  free : fieldsWithoutPercent names

namespace Node.Reordered

variable {node node' node'' : Node}

theorem refl (free : node.withoutPercent) : node.Reordered node := ⟨rfl, free⟩

theorem ordered (free : node.withoutPercent) : node.Reordered node.ordered :=
  ⟨node.ordered_ordered.symm, free⟩

theorem free' (both : node.Reordered node') : node'.withoutPercent := by
  rw [← node'.withoutPercent_ordered, ← both.same, node.withoutPercent_ordered]
  exact both.free

theorem symm (both : node.Reordered node') : node'.Reordered node := ⟨both.same.symm, both.free'⟩

theorem trans (first : node.Reordered node') (second : node'.Reordered node'') :
    node.Reordered node'' :=
  ⟨first.same.trans second.same, first.free⟩

theorem value (both : node.Reordered node') : node.value.Reordered node'.value := by
  refine ⟨?_, node.withoutPercent_eq ▸ both.free⟩
  rw [← value_ordered, both.same, value_ordered]

theorem annotations (both : node.Reordered node') : node.annotations = node'.annotations := by
  rw [← annotations_ordered, both.same, annotations_ordered]

theorem isResolved (both : node.Reordered node') : node.isResolved = node'.isResolved := by
  rw [← node.isResolved_ordered, both.same, node'.isResolved_ordered]

theorem isLocallyResolved (both : node.Reordered node') :
    node.isLocallyResolved = node'.isLocallyResolved := by
  rw [← isLocallyResolved_ordered, both.same, isLocallyResolved_ordered]

theorem name? (both : node.Reordered node') : node.name? = node'.name? := by
  rw [← name?_ordered, both.same, name?_ordered]

end Node.Reordered

namespace Value.Reordered

variable {value value' : Value}

theorem refl (free : value.withoutPercent) : value.Reordered value := ⟨rfl, free⟩

theorem expression {expression : Expression} (free : expression.withoutPercent) :
    (Value.expression expression).Reordered (.expression expression) :=
  refl free

/-- The same annotations may be around both. -/
theorem node (both : value.Reordered value') (annotations : Annotations) :
    (Node.mk value annotations).Reordered (.mk value' annotations) :=
  ⟨congrArg (Node.mk · annotations) both.same, both.free⟩

theorem truthy (both : value.Reordered value') : value.truthy = value'.truthy := by
  rw [← truthy_ordered, both.same, truthy_ordered]

end Value.Reordered

/-! ## Lists -/

namespace NodesReordered

variable {nodes nodes' : List Node}

theorem same (both : NodesReordered nodes nodes') :
    nodes.map Node.ordered = nodes'.map Node.ordered := by
  induction both with
  | nil => rfl
  | cons here _ induction => rw [List.map_cons, List.map_cons, here.same, induction]

theorem free (both : NodesReordered nodes nodes') : ∀ node ∈ nodes, node.withoutPercent := by
  induction both with
  | nil => exact List.forall_mem_nil _
  | cons here _ induction => exact List.forall_mem_cons.mpr ⟨here.free, induction⟩

theorem of_same (same : nodes.map Node.ordered = nodes'.map Node.ordered)
    (free : ∀ node ∈ nodes, node.withoutPercent) : NodesReordered nodes nodes' := by
  induction nodes generalizing nodes' with
  | nil =>
      cases nodes' with
      | nil => exact .nil
      | cons node nodes' => cases same
  | cons node nodes induction =>
      cases nodes' with
      | nil => cases same
      | cons node' nodes' =>
          rw [List.map_cons, List.map_cons, List.cons.injEq] at same
          rw [List.forall_mem_cons] at free
          exact .cons ⟨same.1, free.1⟩ (induction same.2 free.2)

theorem right (both : NodesReordered nodes nodes') : NodesReordered nodes' nodes' := by
  induction both with
  | nil => exact .nil
  | cons here _ induction => exact .cons (.refl here.free') induction

theorem filter (both : NodesReordered nodes nodes') {condition : Node → Bool}
    (blind : ∀ node node', node.Reordered node' → condition node = condition node') :
    NodesReordered (nodes.filter condition) (nodes'.filter condition) := by
  induction both with
  | nil => exact .nil
  | cons here _ induction =>
      rw [List.filter_cons, List.filter_cons, blind _ _ here]
      split
      · exact .cons here induction
      · exact induction

theorem list (both : NodesReordered nodes nodes') :
    (Value.list nodes).Reordered (.list nodes') := by
  refine ⟨?_, entriesWithoutPercent_iff.mpr both.free⟩
  rw [Value.ordered, Value.ordered, entriesOrdered_eq_map, entriesOrdered_eq_map, both.same]

theorem of_list (both : (Value.list nodes).Reordered (.list nodes')) :
    NodesReordered nodes nodes' := by
  refine of_same ?_ (entriesWithoutPercent_iff.mp both.free)
  rw [← entriesOrdered_eq_map, ← entriesOrdered_eq_map]
  exact Value.list.inj both.same

end NodesReordered

/-! ## Tables -/

namespace FieldsReordered

variable {fields fields' others others' : List (String × Node)}

theorem append (both : FieldsReordered fields fields') (also : FieldsReordered others others') :
    FieldsReordered (fields ++ others) (fields' ++ others') := by
  have together (first second : List (String × Node)) :
      tableOrdered (first ++ second) = Table.sorted (fieldsOrdered first ++ fieldsOrdered second) := by
    rw [tableOrdered, fieldsOrdered_eq_map, List.map_append, ← fieldsOrdered_eq_map,
      ← fieldsOrdered_eq_map]
  refine ⟨?_, ?_⟩
  · rw [together, together]
    exact Table.sorted_append both.same also.same
  · rw [fieldsWithoutPercent_iff, List.forall_mem_append]
    exact ⟨fieldsWithoutPercent_iff.mp both.free, fieldsWithoutPercent_iff.mp also.free⟩

/-- Fields that are picked by their keys. -/
theorem filter (both : FieldsReordered fields fields') (condition : String → Bool) :
    FieldsReordered (fields.filter fun field => condition field.1)
      (fields'.filter fun field => condition field.1) := by
  have picked (fields : List (String × Node)) :
      tableOrdered (fields.filter fun field => condition field.1) =
        Table.sorted ((fieldsOrdered fields).filter fun field => condition field.1) := by
    rw [tableOrdered, fieldsOrdered_eq_map, fieldsOrdered_eq_map, List.filter_map]
    rfl
  refine ⟨?_, ?_⟩
  · rw [picked, picked]
    exact Table.sorted_filter _ both.same
  · rw [fieldsWithoutPercent_iff]
    exact fun field member => fieldsWithoutPercent_iff.mp both.free field
      (List.mem_filter.mp member).1

theorem map (both : FieldsReordered fields fields') :
    (Value.map fields).Reordered (.map fields') :=
  ⟨congrArg Value.map both.same, both.free⟩

theorem of_map (both : (Value.map fields).Reordered (.map fields')) :
    FieldsReordered fields fields' :=
  ⟨Value.map.inj both.same, both.free⟩

end FieldsReordered

/-- The two values side by side: all but collections and lambdas are the same. -/
inductive Value.Shapes : Value → Value → Prop where
  | null : Shapes .null .null
  | boolean (truth : Bool) : Shapes (.boolean truth) (.boolean truth)
  | integer (word : Int64) : Shapes (.integer word) (.integer word)
  | decimal (number : Number.Decimal) : Shapes (.decimal number) (.decimal number)
  | text {text : String} (free : Text.lacks '%' text) : Shapes (.text text) (.text text)
  | expression {expression : Expression} (free : expression.withoutPercent) :
      Shapes (.expression expression) (.expression expression)
  | list {entries entries' : List Node} (both : NodesReordered entries entries') :
      Shapes (.list entries) (.list entries')
  | map {fields fields' : List (String × Node)} (both : FieldsReordered fields fields') :
      Shapes (.map fields) (.map fields')
  | lambda {parameters : List String} {body : Expression} {captured captured' : List (String × Node)}
      (free : (Expression.lambda parameters body).withoutPercent)
      (both : NamesReordered captured captured') :
      Shapes (.lambda parameters body captured) (.lambda parameters body captured')

theorem Value.Reordered.shapes {value value' : Value} (both : value.Reordered value') :
    Value.Shapes value value' := by
  rcases both with ⟨same, free⟩
  cases value <;> cases value' <;> simp only [ordered, reduceCtorEq] at same
  case null => exact .null
  case boolean truth truth' =>
    cases same
    exact .boolean truth
  case integer word word' =>
    cases same
    exact .integer word
  case decimal number number' =>
    cases same
    exact .decimal number
  case text text text' =>
    cases same
    exact .text free
  case expression expression expression' =>
    cases same
    exact .expression free
  case list entries entries' => exact .list (.of_list ⟨same, free⟩)
  case map fields fields' => exact .map (.of_map ⟨same, free⟩)
  case lambda parameters body captured parameters' body' captured' =>
    rw [withoutPercent, Bool.and_eq_true] at free
    rcases Value.lambda.inj same with ⟨rfl, rfl, captures⟩
    exact .lambda free.1 ⟨captures, free.2⟩

/-! ## Looking up -/

theorem option_reordered {option option' : Option Node}
    (same : option.map Node.ordered = option'.map Node.ordered)
    (free : ∀ node, option = some node → node.withoutPercent) :
    Option.Rel Node.Reordered option option' := by
  cases option with
  | none =>
      cases option' with
      | none => exact .none
      | some node' => cases same
  | some node =>
      cases option' with
      | none => cases same
      | some node' => exact .some ⟨Option.some.inj same, free node rfl⟩

theorem FieldsReordered.lookup {fields fields' : List (String × Node)}
    (both : FieldsReordered fields fields') (key : String) :
    Option.Rel Node.Reordered (fields.lookup key) (fields'.lookup key) := by
  refine option_reordered ?_ fun node => lookup_withoutPercent both.free
  rw [← lookup_tableOrdered, both.same, lookup_tableOrdered]

theorem NamesReordered.lookup {names names' : List (String × Node)}
    (both : NamesReordered names names') (key : String) :
    Option.Rel Node.Reordered (names.lookup key) (names'.lookup key) := by
  refine option_reordered ?_ fun node => lookup_withoutPercent both.free
  rw [← lookup_fieldsOrdered, both.same, lookup_fieldsOrdered]

inductive Lookup.Reordered : Lookup → Lookup → Prop where
  | found {node node' : Node} (both : node.Reordered node') :
      Lookup.Reordered (.found node) (.found node')
  | unresolved : Lookup.Reordered .unresolved .unresolved
  | missing : Lookup.Reordered .missing .missing

theorem Node.Reordered.find {node node' : Node} (both : node.Reordered node')
    (path : List String) : (node.find path).Reordered (node'.find path) := by
  have same : (node.find path).ordered = (node'.find path).ordered := by
    rw [← find_ordered, both.same, find_ordered]
  have free (next : Node) (found : node.find path = .found next) : next.withoutPercent :=
    Node.find_withoutPercent both.free found
  cases found : node.find path <;> cases found' : node'.find path <;>
    simp only [found, found', Lookup.ordered, reduceCtorEq] at same
  · exact .found ⟨Lookup.found.inj same, free _ found⟩
  · exact .unresolved
  · exact .missing

/-! ## Tables that are put together in order -/

namespace NamesReordered

variable {names names' others others' : List (String × Node)}

theorem cons {name : String} {node node' : Node} (both : NamesReordered names names')
    (named : Text.lacks '%' name) (nodes : node.Reordered node') :
    NamesReordered ((name, node) :: names) ((name, node') :: names') := by
  refine ⟨?_, ?_⟩
  · rw [fieldsOrdered, fieldsOrdered, both.same, nodes.same]
  · rw [fieldsWithoutPercent, named, nodes.free, both.free]
    rfl

theorem mergeSorted (both : NamesReordered names names') (also : NamesReordered others others') :
    NamesReordered (Table.mergeSorted names others) (Table.mergeSorted names' others') := by
  refine ⟨?_, mergeSorted_withoutPercent both.free also.free⟩
  rw [mergeSorted_ordered, mergeSorted_ordered, both.same, also.same]

theorem zip {parameters : List String} {nodes nodes' : List Node}
    (named : ∀ name ∈ parameters, Text.lacks '%' name) (both : NodesReordered nodes nodes') :
    NamesReordered (parameters.zip nodes) (parameters.zip nodes') := by
  refine ⟨?_, zip_withoutPercent named both.free⟩
  rw [zip_ordered, zip_ordered, both.same]

theorem pairs (both : NamesReordered names names') :
    List.Forall₂ (fun name name' => name.1 = name'.1 ∧ Text.lacks '%' name.1 ∧
      name.2.Reordered name'.2) names names' := by
  rcases both with ⟨same, free⟩
  induction names generalizing names' with
  | nil =>
      cases names' with
      | nil => exact .nil
      | cons name names' => cases same
  | cons name names induction =>
      cases names' with
      | nil => cases same
      | cons name' names' =>
          rcases name with ⟨key, node⟩
          rcases name' with ⟨key', node'⟩
          rw [fieldsWithoutPercent, Bool.and_eq_true, Bool.and_eq_true] at free
          rw [fieldsOrdered, fieldsOrdered, List.cons.injEq, Prod.mk.injEq] at same
          exact .cons ⟨same.1.1, free.1.1, same.1.2, free.1.2⟩ (induction same.2 free.2)

/-- The fields of a map become the same names. -/
theorem of_fields {fields fields' : List (String × Node)} (both : FieldsReordered fields fields') :
    NamesReordered (Table.mergeSorted [] fields) (Table.mergeSorted [] fields') := by
  refine ⟨?_, mergeSorted_withoutPercent rfl both.free⟩
  rw [mergeSorted_ordered, mergeSorted_ordered]
  exact Table.mergeSorted_congr List.Pairwise.nil both.same

end NamesReordered

end Stencil
