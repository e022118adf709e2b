import Mathlib
import Stencil.Proofs.Evaluation.Selective
import Stencil.Proofs.Resolution.Keys

namespace Stencil

/-! Templates whose expressions only select settle. Every pass that changes a value makes the
tree lighter: a text with an expression becomes the expression, an expression becomes a value,
and a marker goes away with what it merges, which is resolved. -/

/-- The evaluator ends on every expression that only selects. -/
def Evaluator.Settles (evaluator : Evaluator) : Prop :=
  ∀ (binding : Binding) (expression : Expression), binding.IsOrderly → expression.isSelective →
    Ends (evaluator binding expression)

theorem Expression.evaluate_settles (depth : Nat) : (evaluate (depth + 1)).Settles :=
  fun _ expression orderly selective => evaluateWith_ends orderly expression selective

theorem Node.IsOrderly.isSelective {node : Node} (orderly : node.IsOrderly) {place : List String}
    {expression : Expression} (holds : node.expression? place = some (.ok expression)) :
    expression.isSelective := by
  rcases node with ⟨value, annotations⟩
  cases value with
  | expression held =>
      cases holds
      exact Value.IsOrderly.selective orderly
  | text text =>
      rcases Option.map_eq_some_iff.mp holds with ⟨source, embedded, parsed⟩
      split at parsed
      · rename_i held read
        cases parsed
        exact Value.IsOrderly.selective orderly source place expression embedded read
      · cases parsed
  | _ => cases holds

/-- A tree after a pass and the one before it: no heavier, and equal where the weight stays
and nothing may be overridden. -/
structure Node.Advances (quiet : Prop) (before after : Node) : Prop where
  orderly : after.IsOrderly
  weight : after.weight ≤ before.weight
  same : quiet → after.weight = before.weight → after.same before

theorem Node.Advances.of_quiet {quiet quiet' : Prop} {before after : Node}
    (advances : before.Advances quiet after) (also : quiet' → quiet) :
    before.Advances quiet' after :=
  { advances with same := fun still => advances.same (also still) }

theorem Node.weight_pos {node : Node} (unresolved : node.isLocallyResolved = false) :
    0 < node.weight := by
  rcases node with ⟨value, annotations⟩
  cases value with
  | text text => exact Value.changes_of_unresolved unresolved
  | expression expression => exact Nat.one_pos
  | _ => cases unresolved

theorem Node.weight_of_isSound {node : Node} (sound : node.value.IsSound) : node.weight = 0 := by
  have resolved := sound.1
  rw [node.value_isResolved] at resolved
  exact Node.sum_of_isResolved resolved

namespace Node

variable {node : Node} {quiet : Prop}

theorem advances_withIssue (orderly : node.IsOrderly) (issue : Option Issue) :
    node.Advances quiet (node.withIssue issue) := by
  rcases node with ⟨value, annotations⟩
  exact ⟨orderly, Nat.le_refl _, fun _ _ => orderly.same_self⟩

/-- The expression of a node in its place. -/
theorem advances_expression (orderly : node.IsOrderly) {place : List String}
    {expression : Expression} (holds : node.expression? place = some (.ok expression))
    (issue : Option Issue) :
    node.Advances quiet ((node.withValue (.expression expression)).withIssue issue) := by
  have selective := orderly.isSelective holds
  rcases node with ⟨value, annotations⟩
  cases value with
  | expression held =>
      cases holds
      exact ⟨orderly, Nat.le_refl _, fun _ _ => orderly.same_self⟩
  | text text =>
      have heavier : (Node.mk (.text text) annotations).weight = 2 := by
        rcases Option.map_eq_some_iff.mp holds with ⟨source, embedded, _⟩
        simp [weight, Node.sum, Value.sum, Value.changes, Value.embeds, Value.waits, embedded]
      have lighter : (((Node.mk (.text text) annotations).withValue
          (.expression expression)).withIssue issue).weight = 1 := rfl
      refine ⟨Value.isOrderly_expression selective, ?_, fun _ same => ?_⟩
      · rw [heavier, lighter]
        omega
      · rw [heavier, lighter] at same
        cases same
  | _ => cases holds

/-- What is resolved in the place of what is not. -/
theorem advances_sound {after : Node} (heavy : 0 < node.weight) (sound : after.value.IsSound) :
    node.Advances quiet after := by
  have light := weight_of_isSound sound
  refine ⟨sound.2, ?_, fun _ same => ?_⟩ <;> omega

end Node

/-! ## Leaves and markers -/

variable {evaluator : Evaluator} {binding : Binding} {mode : Override}

theorem Marker.Stays.advances {quiet : Prop} {path : List String} {marker kept : Node}
    (stays : Marker.Stays path marker kept) (orderly : marker.IsOrderly) :
    marker.Advances quiet kept := by
  cases stays with
  | noted issue unresolved => exact Node.advances_withIssue orderly (some issue)
  | evaluated issue holds => exact Node.advances_expression orderly holds issue

theorem Marker.Brings.isSound (settles : evaluator.Settles) (place : binding.IsOrderly)
    {marker : Node} {value : Value} {report : Report} (orderly : marker.IsOrderly)
    (brings : Marker.Brings evaluator binding marker value report) : value.IsSound := by
  rcases brings with ⟨expression, base, holds, evaluated, rfl⟩
  rcases settles binding expression place (orderly.isSelective holds) with ⟨outcome, ends, sound⟩
  rw [evaluated] at ends
  cases ends
  exact sound base rfl

theorem Marker.evaluate_ends (settles : evaluator.Settles) (place : binding.IsOrderly)
    {marker : Node} (orderly : marker.IsOrderly) :
    ∃ result, Marker.evaluate evaluator binding marker = .ok result := by
  unfold evaluate
  cases holds : marker.expression? binding.path with
  | none => exact ⟨_, rfl⟩
  | some found =>
      cases found with
      | error issue => exact ⟨_, rfl⟩
      | ok expression =>
          rcases settles binding expression place (orderly.isSelective holds) with ⟨outcome, ends, _⟩
          simp only [ends]
          exact ⟨_, rfl⟩

namespace Pass

/-- A stub takes the place of a leaf only where something may be overridden or an expression
stands. -/
theorem stubFor?_cases {node found : Node} (held : stubFor? node binding mode = some found) :
    (mode = .all ∨ node.isLocallyResolved = false) ∧
      ∃ path stub, binding.findInStubs? path = some stub ∧ found.value = stub.value := by
  simp only [stubFor?] at held
  split at held
  · rename_i allowed
    rcases Option.map_eq_some_iff.mp held with ⟨stub, below, rfl⟩
    refine ⟨?_, _, stub, below, rfl⟩
    cases mode with
    | all => exact .inl rfl
    | never => simp [Override.allows] at allowed
    | expressions =>
        rw [Bool.and_eq_true, Bool.and_eq_true] at allowed
        rcases Option.isSome_iff_exists.mp allowed.1.1 with ⟨expression, holds⟩
        exact .inr (Node.not_resolved_of_expression holds)
  · cases held

theorem leaf_advances (settles : evaluator.Settles) (place : binding.IsOrderly) {node : Node}
    (orderly : node.IsOrderly) :
    ∃ node', leaf evaluator binding mode node = .ok node' ∧ node.Advances (mode ≠ .all) node' := by
  unfold leaf
  cases held : stubFor? node binding mode with
  | some found =>
      rcases stubFor?_cases held with ⟨allowed, path, stub, below, same⟩
      have sound : found.value.IsSound := same ▸ place.findInStubs? below
      have resolved := sound.1
      rw [found.value_isResolved] at resolved
      refine ⟨found, evaluateNode_of_resolved (Node.isLocallyResolved_of_isResolved resolved), ?_⟩
      rcases allowed with rfl | unresolved
      · refine ⟨sound.2, ?_, fun quiet => absurd rfl quiet⟩
        rw [Node.weight_of_isSound sound]
        exact Nat.zero_le _
      · exact Node.advances_sound (Node.weight_pos unresolved) sound
  | none =>
      unfold evaluateNode
      rw [Option.getD_none]
      cases holds : node.expression? binding.path with
      | none => exact ⟨node, rfl, orderly, Nat.le_refl _, fun _ _ => orderly.same_self⟩
      | some found =>
          cases found with
          | error issue => exact ⟨_, rfl, Node.advances_withIssue orderly (some issue)⟩
          | ok expression =>
              rcases settles binding expression place (orderly.isSelective holds) with
                ⟨outcome, ends, sound⟩
              simp only [ends]
              refine ⟨_, rfl, ?_⟩
              cases outcome with
              | value value report =>
                  have sound : value.value.IsSound := sound value rfl
                  exact Node.advances_sound (Node.weight_pos (Node.not_resolved_of_expression holds))
                    sound
              | deferred report | failed report =>
                  exact Node.advances_expression orderly holds report.issue

end Pass

/-! ## Maps -/

/-- What goes away with a marker that is dropped. -/
def FieldMarker.shed (marker : FieldMarker) (fields : List (String × Node)) : Nat :=
  match marker with
  | .dropped => ((fields.lookup markerKey).map Node.weight).getD 0
  | _ => 0

def fieldsWeight (fields : List (String × Node)) : Nat := fieldsSum Value.changes fields

theorem fieldsWeight_cons (key : String) (field : Node) (fields : List (String × Node)) :
    fieldsWeight ((key, field) :: fields) = field.weight + fieldsWeight fields := rfl

theorem weight_le_of_lookup {fields : List (String × Node)} {key : String} {field : Node}
    (held : fields.lookup key = some field) : field.weight ≤ fieldsWeight fields := by
  induction fields with
  | nil => cases held
  | cons entry fields induction =>
      rcases entry with ⟨first, here⟩
      rw [fieldsWeight_cons]
      rw [List.lookup_cons] at held
      split at held
      · cases held
        exact Nat.le_add_right _ _
      · exact Nat.le_trans (induction held) (Nat.le_add_left _ _)

theorem fieldsWeight_of_sound {fields : List (String × Node)}
    (sound : ∀ entry ∈ fields, entry.2.value.IsSound) : fieldsWeight fields = 0 := by
  induction fields with
  | nil => rfl
  | cons entry fields induction =>
      rcases entry with ⟨key, field⟩
      rw [List.forall_mem_cons] at sound
      rw [fieldsWeight_cons, Node.weight_of_isSound sound.1, induction sound.2]

/-- The fields after a pass and those before it. -/
structure FieldsAdvance (quiet : Prop) (shed : Nat) (before after : List (String × Node)) :
    Prop where
  distinct : fieldsDistinct after
  orderly : ∀ entry ∈ after, entry.2.IsOrderly
  weight : fieldsWeight after + shed ≤ fieldsWeight before
  same : quiet → fieldsWeight after = fieldsWeight before →
    List.Forall₂ (fun later earlier => later.1 = earlier.1 ∧ later.2.same earlier.2) after before

theorem FieldsAdvance.cons {quiet : Prop} {shed : Nat} {before after : List (String × Node)}
    {key : String} {field field' : Node} (rest : FieldsAdvance quiet shed before after)
    (fresh : after.lookup key = none) (here : field.Advances quiet field') :
    FieldsAdvance quiet shed ((key, field) :: before) ((key, field') :: after) := by
  have lighter := rest.weight
  have lighter' := here.weight
  have distinct' : field'.keysDistinct := (Node.isOrderly_iff.mp here.orderly).1
  refine ⟨fieldsDistinct_cons.mpr ⟨fresh, distinct', rest.distinct⟩,
    List.forall_mem_cons.mpr ⟨here.orderly, rest.orderly⟩, ?_, fun still same => ?_⟩
  · rw [fieldsWeight_cons, fieldsWeight_cons]
    omega
  · rw [fieldsWeight_cons, fieldsWeight_cons] at same
    exact .cons ⟨rfl, here.same still (by omega)⟩ (rest.same still (by omega))

/-- Maps with the same keys and equal fields are equal. -/
theorem Value.same_map {fields fields' : List (String × Node)} (distinct : fieldsDistinct fields)
    (same : List.Forall₂ (fun later earlier => later.1 = earlier.1 ∧ later.2.same earlier.2)
      fields' fields) : (Value.map fields').same (.map fields) := by
  rw [Value.same, Bool.and_eq_true, beq_iff_eq]
  refine ⟨same.length_eq, ?_⟩
  suffices all : ∀ {part part' : List (String × Node)},
      List.Forall₂ (fun later earlier => later.1 = earlier.1 ∧ later.2.same earlier.2) part' part →
        (∀ entry ∈ part, entry ∈ fields) → sameFields part' fields from all same fun _ => id
  intro part part' same below
  induction same with
  | nil => rfl
  | @cons later earlier laters earliers here rest induction =>
      rcases later with ⟨key, later⟩
      rcases earlier with ⟨key', earlier⟩
      rw [List.forall_mem_cons] at below
      rcases here with ⟨rfl, here⟩
      rw [sameFields, lookup_of_distinct distinct below.1, Bool.and_eq_true]
      exact ⟨here, induction below.2⟩

/-- A map with other fields, and with what a marker that went away brought in. -/
theorem FieldsAdvance.whole {quiet quiet' : Prop} {shed : Nat} {fields fields' : List (String × Node)}
    {base : Option (List (String × Node))} {annotations : Annotations} {after : Node}
    (advance : FieldsAdvance quiet' shed fields fields') (distinct : fieldsDistinct fields)
    (sound : ∀ added, base = some added → (Value.map added).IsSound ∧ 0 < shed)
    (still : quiet → base = none → quiet')
    (same : after.value = .map (MapPlan.addBase fields' base)) :
    (Node.mk (.map fields) annotations).Advances quiet after := by
  rcases after with ⟨value, annotations'⟩
  cases same
  have before : (Node.mk (.map fields) annotations).weight = fieldsWeight fields := rfl
  have lighter := advance.weight
  cases base with
  | none =>
      have after : (Node.mk (.map fields') annotations').weight = fieldsWeight fields' := rfl
      refine ⟨Value.isOrderly_map.mpr ⟨advance.distinct, advance.orderly⟩, ?_, fun quiet equal => ?_⟩
      · exact Nat.le_trans (Nat.le_add_right _ _) lighter
      · exact Value.same_map distinct (advance.same (still quiet rfl) equal)
  | some added =>
      rcases sound added rfl with ⟨sound, positive⟩
      have each : ∀ entry ∈ added.filter fun entry =>
          entry.1 != markerKey && (fields'.lookup entry.1).isNone, entry.2.value.IsSound :=
        fun entry member => Value.field_isSound sound entry (List.mem_filter.mp member).1
      have after : (Node.mk (.map (MapPlan.addBase fields' (some added))) annotations').weight =
          fieldsWeight fields' + 0 := by
        rw [← fieldsWeight_of_sound each]
        exact fieldsSum_append _ _ _
      refine ⟨Value.isOrderly_map.mpr ⟨?_, ?_⟩, ?_, fun _ equal => ?_⟩
      · refine MapPlan.fieldsDistinct_addBase advance.distinct fun base same => ?_
        cases same
        exact sound.2.distinct
      · exact List.forall_mem_append.mpr
          ⟨advance.orderly, fun entry member => (each entry member).2⟩
      · omega
      · omega

/-- A special marker stands for one that is an expression. -/
def FieldMarker.Treats (path : List String) (marker : FieldMarker)
    (fields : List (String × Node)) : Prop :=
  match marker with
  | .ordinary => True
  | .dropped => ∀ held, fields.lookup markerKey = some held → held.isLocallyResolved = false
  | .kept node => ∀ held, fields.lookup markerKey = some held → Marker.Stays path held node

theorem FieldMarker.treats_of_none {path : List String} {marker : FieldMarker}
    {fields : List (String × Node)} (none : fields.lookup markerKey = none) :
    marker.Treats path fields := by
  unfold Treats
  cases marker with
  | ordinary => trivial
  | dropped | kept node =>
      intro held some
      rw [none] at some
      cases some

theorem FieldMarker.treats_ordinary (path : List String) (fields : List (String × Node)) :
    FieldMarker.ordinary.Treats path fields := trivial

theorem FieldMarker.treats_dropped (path : List String) {fields : List (String × Node)}
    {marker : Node} (held : fields.lookup markerKey = some marker)
    (unresolved : marker.isLocallyResolved = false) : FieldMarker.dropped.Treats path fields := by
  intro other found
  rw [held] at found
  cases found
  exact unresolved

theorem FieldMarker.treats_kept {path : List String} {fields : List (String × Node)}
    {marker kept : Node} (held : fields.lookup markerKey = some marker)
    (stays : Marker.Stays path marker kept) : (FieldMarker.kept kept).Treats path fields := by
  intro other found
  rw [held] at found
  cases found
  exact stays

theorem FieldMarker.shed_dropped {fields : List (String × Node)} {marker : Node}
    (held : fields.lookup markerKey = some marker) :
    FieldMarker.dropped.shed fields = marker.weight := by
  unfold shed
  rw [held]
  rfl

/-- Another field changes nothing about the marker. -/
theorem lookup_marker_cons {key : String} (other : key ≠ markerKey) (field : Node)
    (fields : List (String × Node)) :
    ((key, field) :: fields).lookup markerKey = fields.lookup markerKey := by
  have different : (markerKey == key) = false := by simpa using Ne.symm other
  rw [List.lookup_cons, different]

theorem MapPlan.ofFields_ends (settles : evaluator.Settles) (place : binding.IsOrderly)
    {fields : List (String × Node)} (orderly : ∀ entry ∈ fields, entry.2.IsOrderly) :
    ∃ plan, ofFields evaluator binding fields = .ok plan := by
  unfold ofFields
  cases held : fields.lookup markerKey with
  | none => exact ⟨_, rfl⟩
  | some marker =>
      rcases Marker.evaluate_ends settles place (orderly _ (member_of_lookup held)) with
        ⟨result, evaluated⟩
      simp only [evaluated]
      exact ⟨_, rfl⟩

/-! ## Lists -/

def entriesWeight (entries : List Node) : Nat := entriesSum Value.changes entries

theorem entriesWeight_cons (entry : Node) (entries : List Node) :
    entriesWeight (entry :: entries) = entry.weight + entriesWeight entries := rfl

theorem weight_le_of_member {entries : List Node} {entry : Node} (member : entry ∈ entries) :
    entry.weight ≤ entriesWeight entries := by
  induction entries with
  | nil => cases member
  | cons first entries induction =>
      rw [entriesWeight_cons]
      rcases List.mem_cons.mp member with rfl | member
      · exact Nat.le_add_right _ _
      · exact Nat.le_trans (induction member) (Nat.le_add_left _ _)

theorem entriesWeight_of_sound {entries : List Node}
    (sound : ∀ entry ∈ entries, entry.value.IsSound) : entriesWeight entries = 0 := by
  induction entries with
  | nil => rfl
  | cons entry entries induction =>
      rw [List.forall_mem_cons] at sound
      rw [entriesWeight_cons, Node.weight_of_isSound sound.1, induction sound.2]

/-- The entries after a pass and those before it, and whether something was merged. -/
structure EntriesAdvance (quiet : Prop) (merged : Bool) (before after : List Node) : Prop where
  orderly : ∀ entry ∈ after, entry.IsOrderly
  weight : entriesWeight after + merged.toNat ≤ entriesWeight before
  same : quiet → entriesWeight after = entriesWeight before → sameEntries after before

theorem EntriesAdvance.cons {quiet : Prop} {merged : Bool} {before after : List Node}
    {entry entry' : Node} (rest : EntriesAdvance quiet merged before after)
    (here : entry.Advances quiet entry') :
    EntriesAdvance quiet merged (entry :: before) (entry' :: after) := by
  have lighter := rest.weight
  have lighter' := here.weight
  refine ⟨List.forall_mem_cons.mpr ⟨here.orderly, rest.orderly⟩, ?_, fun still same => ?_⟩
  · rw [entriesWeight_cons, entriesWeight_cons]
    omega
  · rw [entriesWeight_cons, entriesWeight_cons] at same
    rw [sameEntries, Bool.and_eq_true]
    exact ⟨here.same still (by omega), rest.same still (by omega)⟩

/-- Sound nodes in the place of an entry with a marker. -/
theorem EntriesAdvance.splice {quiet : Prop} {merged : Bool} {before after nodes : List Node}
    {entry : Node} (rest : EntriesAdvance quiet merged before after)
    (sound : ∀ node ∈ nodes, node.value.IsSound) (heavy : 0 < entry.weight) (also : Bool)
    (either : also = true ∨ also = merged) :
    EntriesAdvance quiet also (entry :: before) (nodes ++ after) := by
  have lighter := rest.weight
  have light := entriesWeight_of_sound sound
  have total : entriesWeight (nodes ++ after) = entriesWeight nodes + entriesWeight after :=
    entriesSum_append _ _ _
  refine ⟨List.forall_mem_append.mpr ⟨fun node member => (sound node member).2, rest.orderly⟩,
    ?_, fun _ same => ?_⟩
  · rw [entriesWeight_cons, total, light]
    rcases either with rfl | rfl
    · rw [Bool.toNat_true]
      omega
    · omega
  · rw [entriesWeight_cons, total, light] at same
    omega

theorem EntriesAdvance.whole {quiet quiet' : Prop} {merged : Bool} {entries entries' : List Node}
    {annotations : Annotations} {after : Node}
    (advance : EntriesAdvance quiet' merged entries entries')
    (still : quiet → merged = false → quiet') (same : after.value = .list entries') :
    (Node.mk (.list entries) annotations).Advances quiet after := by
  rcases after with ⟨value, annotations'⟩
  cases same
  have before : (Node.mk (.list entries) annotations).weight = entriesWeight entries := rfl
  have after : (Node.mk (.list entries') annotations').weight = entriesWeight entries' := rfl
  have lighter := advance.weight
  refine ⟨Value.isOrderly_list.mpr advance.orderly, ?_, fun quiet equal => ?_⟩
  · exact Nat.le_trans (Nat.le_add_right _ _) lighter
  · cases merged with
    | false => exact advance.same (still quiet rfl) equal
    | true =>
        rw [Bool.toNat_true] at lighter
        omega

theorem marker_isOrderly {entry marker : Node} (held : listMarker? entry = some marker)
    (orderly : entry.IsOrderly) : marker.IsOrderly := by
  rcases markerField held with ⟨annotations, rfl⟩
  exact (Value.isOrderly_map.mp orderly).2 _ List.mem_cons_self

theorem marker_weight {entry marker : Node} (held : listMarker? entry = some marker) :
    entry.weight = marker.weight := by
  rcases markerField held with ⟨annotations, rfl⟩
  exact Nat.add_zero _

theorem keptEntry_advances {quiet : Prop} {entry marker kept : Node}
    (held : listMarker? entry = some marker) (here : marker.Advances quiet kept) :
    entry.Advances quiet (entry.withValue (.map [(markerKey, kept)])) := by
  have same := marker_weight held
  have kept' : (entry.withValue (.map [(markerKey, kept)])).weight = kept.weight := Nat.add_zero _
  rcases markerField held with ⟨annotations, rfl⟩
  have distinct : kept.keysDistinct := (Node.isOrderly_iff.mp here.orderly).1
  refine ⟨?_, ?_, fun still equal => ?_⟩
  · exact Value.isOrderly_map.mpr
      ⟨fieldsDistinct_cons.mpr ⟨rfl, distinct, rfl⟩, List.forall_mem_singleton.mpr here.orderly⟩
  · rw [kept', same]
    exact here.weight
  · rw [kept', same] at equal
    have inner : kept.same marker := here.same still equal
    simp [Node.withValue, Node.same, Value.same, sameFields, inner]

theorem newEntries_sound (names : List String) {added : List Node}
    (sound : (Value.list added).IsSound) : ∀ node ∈ newEntries names added, node.value.IsSound :=
  fun node member => Value.isSound_list.mp sound node (List.mem_filter.mp member).1

namespace ListPlan

theorem ofEntries_ends (settles : evaluator.Settles) {names : List String} {entries : List Node}
    {binding : Binding} (place : binding.IsOrderly) (redirect : Option (List String))
    (merged : Bool) (orderly : ∀ entry ∈ entries, entry.IsOrderly) :
    ∃ plan, ofEntries evaluator names binding redirect merged entries = .ok plan := by
  induction entries generalizing binding redirect merged with
  | nil => exact ⟨_, rfl⟩
  | cons entry entries induction =>
      rw [List.forall_mem_cons] at orderly
      have others : ∀ {below : Binding} (redirect : Option (List String)) (merged : Bool),
          below.IsOrderly → ∃ plan, ofEntries evaluator names below redirect merged entries =
            .ok plan := fun redirect merged place => induction place redirect merged orderly.2
      rcases others redirect merged place with ⟨rest, same⟩
      unfold ofEntries
      cases held : listMarker? entry with
      | none =>
          simp only [same]
          exact ⟨_, rfl⟩
      | some marker =>
          rcases Marker.evaluate_ends settles place (marker_isOrderly held orderly.1) with
            ⟨result, evaluated⟩
          simp only [evaluated, same, bind, Except.bind]
          cases result with
          | literal | drop | keep kept => exact ⟨_, rfl⟩
          | merge base moved replace =>
              simp only
              split
              · split
                · exact ⟨_, rfl⟩
                · cases moved with
                  | none =>
                      rcases others (redirect <|> none) true place with ⟨rest', same'⟩
                      rw [same']
                      exact ⟨_, rfl⟩
                  | some path =>
                      have moved : (binding.withStubPath path).IsOrderly := { place with }
                      rcases others (redirect <|> some path) true moved with ⟨rest', same'⟩
                      rw [same']
                      exact ⟨_, rfl⟩
              · exact ⟨_, rfl⟩

end ListPlan

/-! ## Passes -/

theorem Binding.IsOrderly.followRedirect (place : binding.IsOrderly)
    (redirect : Option (List String)) : (Pass.followRedirect binding redirect).IsOrderly := by
  rcases Pass.followRedirect_eq binding redirect with ⟨path, same⟩
  rw [same]
  exact { place with }

theorem Binding.IsOrderly.inside (place : binding.IsOrderly) (annotations : Annotations) :
    (Pass.inside binding annotations).IsOrderly := by
  have outer : (binding.withSource annotations.source).IsOrderly := { place with }
  exact outer.followRedirect annotations.redirect

theorem Binding.IsOrderly.withScope (place : binding.IsOrderly) {fields : List (String × Node)}
    (orderly : (Value.map fields).IsOrderly) : (binding.withScope fields).IsOrderly :=
  { place with scopes := List.forall_mem_cons.mpr ⟨orderly, place.scopes⟩ }

theorem Binding.IsOrderly.withPath (place : binding.IsOrderly) (step : String) :
    (binding.withPath step).IsOrderly := { place with }

theorem Binding.IsOrderly.withSource (place : binding.IsOrderly) (source : Option String) :
    (binding.withSource source).IsOrderly := { place with }

theorem Binding.IsOrderly.withStubPath (place : binding.IsOrderly) (path : List String) :
    (binding.withStubPath path).IsOrderly := { place with }

namespace Pass

theorem entryMode_ne_all {merged : Bool} {entry : Node} (quiet : mode ≠ .all) :
    entryMode mode merged entry ≠ .all := by
  unfold entryMode
  split
  · decide
  · exact quiet

mutual
/-- What a visit makes of an orderly tree is orderly and no heavier. -/
theorem visit_advances (settles : evaluator.Settles) : ∀ (node : Node) {binding : Binding}
    {mode : Override}, binding.IsOrderly → node.IsOrderly →
      ∃ node', visit evaluator binding mode node = .ok node' ∧ node.Advances (mode ≠ .all) node'
  | .mk (.map fields) annotations, binding, mode, place, orderly => by
      rcases Value.isOrderly_map.mp orderly with ⟨distinct, each⟩
      have inner := (place.inside annotations).withScope orderly
      rcases MapPlan.ofFields_ends settles inner each with ⟨plan, planned⟩
      have follows := MapPlan.ofFields_follows planned
      -- Every plan but a replacement visits the fields.
      have visited : ∀ {marker : FieldMarker} {redirect : Option (List String)}
          {base : Option (List (String × Node))} {path : List String},
          MapPlan.ofFields evaluator ((inside binding annotations).withScope fields) fields =
            .ok (.fields marker redirect base) →
          marker.Treats path fields →
          (∀ added, base = some added → (Value.map added).IsSound ∧ 0 < marker.shed fields) →
            ∃ node', visit evaluator binding mode (.mk (.map fields) annotations) = .ok node' ∧
              (Node.mk (.map fields) annotations).Advances (mode ≠ .all) node' := by
        intro marker redirect base path planned treats sound
        rcases visitFields_advance settles fields (inner.followRedirect redirect) distinct each
          treats with ⟨fields', visited, advance⟩
        rcases visit_map_fields planned visited with ⟨node', ends, same⟩
        refine ⟨node', ends, advance.whole distinct sound ?_ same⟩
        rintro quiet rfl
        exact Override.entries_ne_all quiet annotations.replace
      cases follows with
      | ordinary resolved =>
          exact visited planned (FieldMarker.treats_ordinary [] fields) fun _ same => nomatch same
      | dropped held unresolved =>
          exact visited planned (FieldMarker.treats_dropped [] held unresolved)
            fun _ same => nomatch same
      | kept held stays =>
          exact visited planned (FieldMarker.treats_kept held stays) fun _ same => nomatch same
      | merged held brings =>
          refine visited planned (FieldMarker.treats_dropped [] held brings.unresolved) ?_
          intro added same
          cases same
          refine ⟨brings.isSound settles inner (each _ (member_of_lookup held)), ?_⟩
          rw [FieldMarker.shed_dropped held]
          exact Node.weight_pos brings.unresolved
      | replaced held brings =>
          have sound := brings.isSound settles inner (each _ (member_of_lookup held))
          rcases visit_map_replaced planned with ⟨node', ends, same⟩
          refine ⟨node', ends, Node.advances_sound ?_ (same ▸ sound)⟩
          exact Nat.lt_of_lt_of_le (Node.weight_pos brings.unresolved) (weight_le_of_lookup held)
  | .mk (.list entries) annotations, binding, mode, place, orderly => by
      have each := Value.isOrderly_list.mp orderly
      have inner := place.inside annotations
      obtain ⟨plan, planned⟩ : ∃ plan, ListPlan.ofEntries evaluator (entries.filterMap Node.name?)
          (inside binding annotations) none false entries = .ok plan :=
        ListPlan.ofEntries_ends settles inner none false each
      have follows := ListPlan.ofEntries_follows (inside binding annotations).stubPath planned
      cases follows with
      | @entries steps merged path redirect follows =>
          have below := inner.withStubPath path
          rcases visitEntries_advance settles entries (false || merged) 0 inner below each follows
            with ⟨entries', visited, advance⟩
          rcases visit_list_entries planned visited with ⟨node', ends, same⟩
          refine ⟨node', ends, advance.whole ?_ same⟩
          rintro quiet rfl
          exact Override.entries_ne_all quiet annotations.replace
      | replaced member held brings =>
          have sound := brings.isSound settles (inner.withStubPath _)
            (marker_isOrderly held (each _ member))
          rcases visit_list_replaced planned with ⟨node', ends, same⟩
          refine ⟨node', ends, Node.advances_sound ?_ (same ▸ sound)⟩
          have heavy := Node.weight_pos brings.unresolved
          rw [← marker_weight held] at heavy
          exact Nat.lt_of_lt_of_le heavy (weight_le_of_member member)
  | .mk .null annotations, _, _, place, orderly
  | .mk (.boolean _) annotations, _, _, place, orderly
  | .mk (.integer _) annotations, _, _, place, orderly
  | .mk (.decimal _) annotations, _, _, place, orderly
  | .mk (.text _) annotations, _, _, place, orderly
  | .mk (.expression _) annotations, _, _, place, orderly
  | .mk (.lambda _ _ _) annotations, _, _, place, orderly =>
      leaf_advances settles (place.withSource annotations.source) orderly

theorem visitFields_advance (settles : evaluator.Settles) : ∀ (fields : List (String × Node))
    {binding : Binding} {mode : Override} {marker : FieldMarker} {path : List String},
    binding.IsOrderly → fieldsDistinct fields → (∀ entry ∈ fields, entry.2.IsOrderly) →
      marker.Treats path fields →
        ∃ fields', visitFields evaluator binding mode marker fields = .ok fields' ∧
          FieldsAdvance (mode ≠ .all) (marker.shed fields) fields fields'
  | [], _, _, marker, _, _, _, _, _ => by
      refine ⟨[], rfl, rfl, (fun _ member => nomatch member), ?_, fun _ _ => .nil⟩
      cases marker <;> exact Nat.le_refl 0
  | (key, field) :: fields, binding, mode, marker, path, place, distinct, orderly, treats => by
      rcases fieldsDistinct_cons.mp distinct with ⟨fresh, _, apart⟩
      rw [List.forall_mem_cons] at orderly
      have visited : marker = .ordinary ∨ key ≠ markerKey → marker.Treats path fields →
          marker.shed ((key, field) :: fields) = marker.shed fields →
          ∃ fields', visitFields evaluator binding mode marker ((key, field) :: fields) =
              .ok fields' ∧
            FieldsAdvance (mode ≠ .all) (marker.shed ((key, field) :: fields))
              ((key, field) :: fields) fields' := by
        intro here treats same
        rcases visit_advances settles field (place.withPath key) orderly.1 with
          ⟨field', first, advances⟩
        rcases visitFields_advance settles fields place apart orderly.2 treats with
          ⟨fields', others, rest⟩
        refine ⟨(key, field') :: fields', ?_, ?_⟩
        · rw [visitFields_visited here, first, others]
          rfl
        · rw [same]
          exact rest.cons (visitFields_fresh others fresh) advances
      by_cases isMarker : key = markerKey
      · subst isMarker
        cases marker with
        | ordinary => exact visited (.inl rfl) trivial rfl
        | dropped =>
            have held : ((markerKey, field) :: fields).lookup markerKey = some field := by simp
            have treats' : FieldMarker.dropped.Treats path fields :=
              FieldMarker.treats_of_none fresh
            rcases visitFields_advance settles fields place apart orderly.2 treats' with
              ⟨fields', others, rest⟩
            have lighter := rest.weight
            have heavy := Node.weight_pos (treats field held)
            have shed := FieldMarker.shed_dropped held
            refine ⟨fields', ?_, rest.distinct, rest.orderly, ?_, fun _ same => ?_⟩
            · rw [visitFields_dropped]
              exact others
            · rw [shed, fieldsWeight_cons]
              omega
            · rw [fieldsWeight_cons] at same
              omega
        | kept node =>
            have held : ((markerKey, field) :: fields).lookup markerKey = some field := by simp
            have treats' : (FieldMarker.kept node).Treats path fields :=
              FieldMarker.treats_of_none fresh
            rcases visitFields_advance settles fields place apart orderly.2 treats' with
              ⟨fields', others, rest⟩
            refine ⟨(markerKey, node) :: fields', ?_, ?_⟩
            · rw [visitFields_kept, others]
              rfl
            · exact rest.cons (visitFields_fresh others fresh)
                ((treats field held).advances orderly.1)
      · have same := lookup_marker_cons isMarker field fields
        refine visited (.inr isMarker) ?_ ?_
        · unfold FieldMarker.Treats at treats ⊢
          rwa [same] at treats
        · unfold FieldMarker.shed
          rw [same]

theorem visitEntries_advance (settles : evaluator.Settles) : ∀ (entries : List Node)
    {binding below : Binding} {names : List String} {mode : Override} {steps : List EntryStep}
    {merged : Bool} (flag : Bool) (index : Nat), binding.IsOrderly → below.IsOrderly →
      (∀ entry ∈ entries, entry.IsOrderly) →
      EntriesFollow evaluator binding names entries steps merged →
        ∃ entries', visitEntries evaluator below mode flag index steps entries = .ok entries' ∧
          EntriesAdvance (mode ≠ .all) merged entries entries'
  | [], _, _, _, _, _, _, _, _, _, _, _, follows => by
      cases follows
      refine ⟨[], ?_, (fun _ member => nomatch member), Nat.le_refl 0, fun _ _ => rfl⟩
      rw [visitEntries]
  | entry :: entries, binding, below, names, mode, steps, merged, flag, index, place, inner,
      orderly, follows => by
      rw [List.forall_mem_cons] at orderly
      cases follows with
      | @visit _ _ steps _ resolved rest =>
          obtain ⟨entry', first, advances⟩ : ∃ entry', visit evaluator
              (below.withPath (stepName index entry)) (entryMode mode flag entry) entry =
                .ok entry' ∧ entry.Advances (entryMode mode flag entry ≠ .all) entry' :=
            visit_advances settles entry (inner.withPath (stepName index entry)) orderly.1
          rcases visitEntries_advance settles entries flag (index + 1) place inner orderly.2 rest with
            ⟨entries', others, rest⟩
          refine ⟨entry' :: entries', ?_, rest.cons (advances.of_quiet entryMode_ne_all)⟩
          rw [visitEntries, first, others]
          rfl
      | dropped held unresolved rest =>
          rcases visitEntries_advance settles entries flag (index + 0) place inner orderly.2 rest with
            ⟨entries', others, rest⟩
          have heavy := Node.weight_pos unresolved
          rw [← marker_weight held] at heavy
          have none : ∀ node ∈ ([] : List Node), node.value.IsSound := fun _ member => nomatch member
          refine ⟨[] ++ entries', ?_, rest.splice none heavy _ (.inr rfl)⟩
          rw [visitEntries, List.length_nil, others]
          rfl
      | kept held stays rest =>
          rcases visitEntries_advance settles entries flag (index + 1) place inner orderly.2 rest with
            ⟨entries', others, rest⟩
          refine ⟨_ :: entries', ?_,
            rest.cons (keptEntry_advances held (stays.advances (marker_isOrderly held orderly.1)))⟩
          rw [ListPlan.keptEntry, visitEntries, List.length_singleton, others]
          rfl
      | @merged _ marker added _ report steps' merged' path held brings rest =>
          have place' : (binding.withStubPath path).IsOrderly := place.withStubPath path
          have sound := newEntries_sound names
            (brings.isSound settles place' (marker_isOrderly held orderly.1))
          rcases visitEntries_advance settles entries flag (index + (newEntries names added).length)
            place inner orderly.2 rest with ⟨entries', others, rest⟩
          have heavy := Node.weight_pos brings.unresolved
          rw [← marker_weight held] at heavy
          refine ⟨newEntries names added ++ entries', ?_, rest.splice sound heavy true (.inl rfl)⟩
          rw [visitEntries, others]
          rfl
end

end Pass

/-! ## Runs -/

namespace Resolution

variable {answers : Answers} {stubs : List Node}

/-- A pass over an orderly document with sound stubs. -/
theorem run_advances (answers : Answers) {document : Node}
    (sound : ∀ stub ∈ stubs, stub.value.IsSound) (orderly : document.IsOrderly) :
    ∃ next, Pass.run answers stubs document = .ok next ∧ document.Advances True next := by
  have place : (root answers stubs).IsOrderly := ⟨rfl, (fun _ member => nomatch member), sound⟩
  have settles : (Expression.evaluate Expression.callDepth).Settles :=
    Expression.evaluate_settles 99999
  obtain ⟨next, pass, advances⟩ : ∃ next, Pass.run answers stubs document = .ok next ∧
      document.Advances (Override.expressions ≠ .all) next :=
    Pass.visit_advances settles document place orderly
  exact ⟨next, pass, advances.of_quiet fun _ => Override.expressions_ne_all⟩

/-- As many passes as the document is heavy, and one more, are enough. -/
theorem settle_ends (sound : ∀ stub ∈ stubs, stub.value.IsSound) {left : Nat} (passes : Nat)
    {document : Node} (orderly : document.IsOrderly) (enough : document.weight < left) :
    ∃ resolution, settle answers stubs left passes document = .ok (some resolution) ∧
      resolution.passes ≤ passes + document.weight + 1 := by
  induction left generalizing passes document with
  | zero => exact absurd enough (Nat.not_lt_zero _)
  | succ left induction =>
      rcases run_advances answers sound orderly with ⟨next, pass, advances⟩
      unfold settle
      simp only [pass, bind, Except.bind]
      cases same : next == document with
      | true =>
          simp only [if_true]
          refine ⟨_, rfl, ?_⟩
          exact Nat.succ_le_succ (Nat.le_add_right passes document.weight)
      | false =>
          have lighter : next.weight < document.weight := by
            refine Nat.lt_of_le_of_ne advances.weight fun equal => ?_
            have same' : (next == document) = true := advances.same trivial equal
            rw [same] at same'
            cases same'
          rcases induction (passes + 1) advances.orderly (by omega) with ⟨resolution, ends, bound⟩
          refine ⟨resolution, ends, ?_⟩
          omega

/-- A template whose expressions only select settles within twice as many passes as there are
texts with an expression in it, and one more. -/
theorem partly_settles {template : Node} {limit : Nat} (distinct : template.keysDistinct)
    (numbers : template.withoutNaN) (selective : template.IsSelective)
    (stubsResolved : ∀ stub ∈ stubs, stub.isResolved)
    (stubsDistinct : ∀ stub ∈ stubs, stub.keysDistinct)
    (stubsNumbers : ∀ stub ∈ stubs, stub.withoutNaN)
    (enough : 2 * template.sum Value.embeds + template.sum Value.waits + 1 ≤ limit) :
    ∃ resolution, partly answers limit stubs template = .ok (.ok resolution) ∧
      resolution.passes ≤ 2 * template.sum Value.embeds + template.sum Value.waits + 1 := by
  have sound : ∀ stub ∈ stubs, stub.value.IsSound := by
    intro stub member
    apply Value.isSound_of_isResolved
    · rw [stub.value_isResolved]
      exact stubsResolved stub member
    · rw [stub.value_keysDistinct]
      exact stubsDistinct stub member
    · rw [stub.value_withoutNaN]
      exact stubsNumbers stub member
  have orderly := Node.isOrderly_iff.mpr ⟨distinct, numbers, selective⟩
  rw [← template.weight_eq] at enough ⊢
  rcases settle_ends sound 0 orderly enough with ⟨resolution, ends, bound⟩
  refine ⟨resolution, ?_, ?_⟩
  · unfold partly
    rw [ends]
    rfl
  · rwa [Nat.zero_add] at bound

/-- A circle, a name that is not there, and a marker that merges. -/
theorem partly_settles_circle :
    let text (value : String) : Node := .mk (.text value) {}
    let template : Node := .mk (.map [("a", text "(( b ))"), ("b", text "(( a || c ))"),
      ("F", .mk (.map [(markerKey, text "(( merge ))"), ("x", text "(( y ))")]) {})]) {}
    let stub : Node := .mk (.map [("F", .mk (.map [("y", .mk (.integer 1) {})]) {})]) {}
    template.sum Value.embeds = 4 ∧ template.sum Value.waits = 0 ∧
      ∃ resolution, partly .none 9 [stub] template = .ok (.ok resolution) ∧
        resolution.passes ≤ 9 := by
  intro text template stub
  have first : ∀ place, Expression.parse "b" place = .ok (.reference ["b"]) := fun _ => by cbv
  have second : ∀ place, Expression.parse "a || c" place =
      .ok (.binary .fallback (.reference ["a"]) (.reference ["c"])) := fun _ => by cbv
  have merge : ∀ place, Expression.parse "merge" place = .ok (.merge place false false) :=
    fun _ => by cbv
  have beside : ∀ place, Expression.parse "y" place = .ok (.reference ["y"]) := fun _ => by cbv
  have selective : template.IsSelective :=
    ⟨Value.isSelective_text rfl first fun _ => rfl, Value.isSelective_text rfl second fun _ => rfl,
      ⟨Value.isSelective_text rfl merge fun _ => rfl,
        Value.isSelective_text rfl beside fun _ => rfl, trivial⟩, trivial⟩
  exact ⟨rfl, rfl, partly_settles rfl rfl selective (by decide) (by decide) (by decide) (by decide)⟩

end Resolution

end Stencil
