import Stencil.Proofs.Node.Comparison
import Stencil.Proofs.Resolution.Site

namespace Stencil

/-! Trees that hold all the contents of another one. Two trees that are filled in from one
template are compared where the template has its expressions. -/

/-- The second tree has all that is resolved in the first one, but for annotations. -/
def Node.Within (node later : Node) : Prop :=
  (node.masked .contents).RefinedBy (later.masked .contents)

theorem entriesWithin_iff {entries laters : List Node} :
    entriesRefined (entriesMasked .contents entries) (entriesMasked .contents laters) ↔
      List.Forall₂ Node.Within entries laters := by
  induction entries generalizing laters with
  | nil =>
      cases laters with
      | nil => exact ⟨fun _ => .nil, fun _ => trivial⟩
      | cons later laters => exact ⟨False.elim, fun both => by cases both⟩
  | cons entry entries induction =>
      cases laters with
      | nil => exact ⟨False.elim, fun both => by cases both⟩
      | cons later laters =>
          rw [List.forall₂_cons, ← induction]
          exact Iff.rfl

theorem fieldsWithin_iff {fields laters : List (String × Node)} :
    fieldsRefined (fieldsMasked .contents fields) (fieldsMasked .contents laters) ↔
      List.Forall₂ (fun field later => field.1 = later.1 ∧ field.2.Within later.2)
        fields laters := by
  induction fields generalizing laters with
  | nil =>
      cases laters with
      | nil => exact ⟨fun _ => .nil, fun _ => trivial⟩
      | cons later laters => exact ⟨False.elim, fun both => by cases both⟩
  | cons field fields induction =>
      cases laters with
      | nil => exact ⟨False.elim, fun both => by cases both⟩
      | cons later laters =>
          rw [List.forall₂_cons, ← induction, and_assoc]
          exact Iff.rfl

namespace Node

namespace Within

variable {node later third : Node}

theorem of_same (same : node.masked .contents = later.masked .contents) : node.Within later := by
  rw [Within, same]
  exact Node.RefinedBy.refl _

theorem of_refined (refined : node.RefinedBy later) : node.Within later := refined.masked _

theorem of_unresolved (unresolved : node.isLocallyResolved = false) : node.Within later := by
  rcases node with ⟨value, annotations⟩
  exact .inl (by rwa [Value.isLocallyResolved_masked])

theorem trans (first : node.Within later) (second : later.Within third) : node.Within third :=
  Node.RefinedBy.trans first second

theorem list {entries : List Node} {annotations : Annotations}
    (within : (Node.mk (.list entries) annotations).Within later) :
    ∃ laters annotations', later = .mk (.list laters) annotations' ∧
      List.Forall₂ Node.Within entries laters := by
  rcases later with ⟨value, annotations'⟩
  have inner := (Node.RefinedBy.inner within rfl).2
  cases value with
  | list laters => exact ⟨laters, annotations', rfl, entriesWithin_iff.mp inner⟩
  | _ => cases inner

theorem map {fields : List (String × Node)} {annotations : Annotations}
    (within : (Node.mk (.map fields) annotations).Within later) :
    ∃ laters annotations', later = .mk (.map laters) annotations' ∧
      List.Forall₂ (fun field later => field.1 = later.1 ∧ field.2.Within later.2) fields laters := by
  rcases later with ⟨value, annotations'⟩
  have inner := (Node.RefinedBy.inner within rfl).2
  cases value with
  | map laters => exact ⟨laters, annotations', rfl, fieldsWithin_iff.mp inner⟩
  | _ => cases inner

/-- What is resolved has the same contents. -/
theorem same (within : node.Within later) (resolved : node.isResolved) :
    later.masked .contents = node.masked .contents :=
  Node.RefinedBy.eq_of_isResolved within (by rwa [Node.isResolved_masked])

theorem at? {leaf : Node} {route : List Step} (within : node.Within later)
    (found : node.at? route = some leaf) :
    ∃ leaf', later.at? route = some leaf' ∧ leaf.Within leaf' :=
  Node.RefinedBy.at? within found

end Within

end Node

/-! ## Equal trees -/

namespace Node

theorem same_below? {left right child : Node} {step : Step} (same : left.same right)
    (found : left.below? step = some child) :
    ∃ child', right.below? step = some child' ∧ child.same child' := by
  rcases right with ⟨value', annotations'⟩
  rcases below?_cases found with
    ⟨key, fields, annotations, rfl, rfl, held⟩ | ⟨index, entries, annotations, rfl, rfl, held⟩
  · cases value' with
    | map fields' =>
        rw [Node.same, Value.same, Bool.and_eq_true] at same
        rw [below?_field]
        exact same_of_sameFields same.2 held
    | _ => cases same
  · cases value' with
    | list entries' =>
        rw [below?_entry]
        exact same_of_sameEntries same held
    | _ => cases same

/-- Equal trees have equal nodes at every position. -/
theorem same_at? {left right leaf : Node} {route : List Step} (same : left.same right)
    (found : left.at? route = some leaf) :
    ∃ leaf', right.at? route = some leaf' ∧ leaf.same leaf' := by
  induction route generalizing left right with
  | nil =>
      cases found
      exact ⟨right, rfl, same⟩
  | cons step route induction =>
      rcases at?_cons found with ⟨child, first, rest⟩
      rcases same_below? same first with ⟨child', first', children⟩
      rcases induction children rest with ⟨leaf', rest', leaves⟩
      refine ⟨leaf', ?_, leaves⟩
      rw [at?_of_below? first']
      exact rest'

theorem isLocallyResolved_of_same {left right : Node} (same : left.same right)
    (resolved : left.isLocallyResolved) : right.isLocallyResolved := by
  rcases left with ⟨value, annotations⟩
  rcases right with ⟨value', annotations'⟩
  cases value with
  | text text =>
      cases value' with
      | text text' =>
          rw [Node.same, Value.same, beq_iff_eq] at same
          rwa [← same]
      | _ => cases same
  | expression expression => cases resolved
  | _ =>
      cases value' with
      | text text => cases same
      | expression expression => cases same
      | _ => rfl

end Node

/-! ## Trees that differ where a template has expressions -/

/-- A relation that only looks at the contents, and at each child for itself. -/
structure Congruent (related : Node → Node → Prop) : Prop where
  same {first second : Node} (same : first.masked .contents = second.masked .contents) :
    related first second
  list {firsts seconds : List Node} {annotations annotations' : Annotations}
    (entries : List.Forall₂ related firsts seconds) :
    related (.mk (.list firsts) annotations) (.mk (.list seconds) annotations')
  map {firsts seconds : List (String × Node)} {annotations annotations' : Annotations}
    (fields : List.Forall₂ (fun first second => first.1 = second.1 ∧ related first.2 second.2)
      firsts seconds) :
    related (.mk (.map firsts) annotations) (.mk (.map seconds) annotations')

theorem congruent_within : Congruent Node.Within where
  same := .of_same
  list entries := .inr ⟨rfl, entriesWithin_iff.mpr entries⟩
  map fields := .inr ⟨rfl, fieldsWithin_iff.mpr fields⟩

theorem congruent_same :
    Congruent fun first second => first.masked .contents = second.masked .contents where
  same := id
  list {firsts seconds annotations annotations'} entries := by
    have same : entriesMasked .contents firsts = entriesMasked .contents seconds := by
      induction entries with
      | nil => rfl
      | cons here _ others => rw [entriesMasked, entriesMasked, here, others]
    simp only [Node.masked, Value.masked, same]
    rfl
  map {firsts seconds annotations annotations'} fields := by
    have same : fieldsMasked .contents firsts = fieldsMasked .contents seconds := by
      induction fields with
      | nil => rfl
      | cons here _ others => rw [fieldsMasked, fieldsMasked, here.1, here.2, others]
    simp only [Node.masked, Value.masked, same]
    rfl

/-- What two trees have where a template has an expression. -/
def Meet (related : Node → Node → Prop) (found first second : Option Node) : Prop :=
  ∀ leaf, found = some leaf → leaf.isLocallyResolved = false →
    ∃ one other, first = some one ∧ second = some other ∧ related one other

namespace Congruent

variable {related : Node → Node → Prop}

theorem lift_leaf (congruent : Congruent related) {template first second : Node}
    (noMap : template.kind ≠ .map) (noList : template.kind ≠ .list) (within : template.Within first)
    (within' : template.Within second) (meet : Meet related (some template) (some first) (some second)) :
    related first second := by
  cases resolved : template.isLocallyResolved with
  | false =>
      rcases meet template rfl resolved with ⟨_, _, ⟨⟩, ⟨⟩, here⟩
      exact here
  | true =>
      have whole : template.isResolved := by
        rcases template with ⟨value, annotations⟩
        cases value with
        | map fields => exact absurd rfl noMap
        | list entries => exact absurd rfl noList
        | _ => exact resolved
      exact congruent.same ((within.same whole).trans (within'.same whole).symm)

mutual
/-- Two trees with all that is resolved in a template are related as a whole when they are
related wherever the template has an expression. -/
theorem lift (congruent : Congruent related) : ∀ (template : Node) {first second : Node},
    template.keysDistinct → template.Within first → template.Within second →
      (∀ route, Meet related (template.at? route) (first.at? route) (second.at? route)) →
      related first second
  | .mk (.list entries) annotations, first, second, distinct, within, within', meet => by
      rcases within.list with ⟨firsts, _, rfl, nodes⟩
      rcases within'.list with ⟨seconds, _, rfl, nodes'⟩
      refine congruent.list (congruent.lift_entries entries distinct nodes nodes' ?_)
      intro index route
      have below := meet (.entry index :: route)
      rwa [Node.at?, Node.at?, Node.at?, Node.below?_entry, Node.below?_entry,
        Node.below?_entry] at below
  | .mk (.map fields) annotations, first, second, distinct, within, within', meet => by
      rcases within.map with ⟨firsts, _, rfl, nodes⟩
      rcases within'.map with ⟨seconds, _, rfl, nodes'⟩
      refine congruent.map (congruent.lift_fields fields distinct nodes nodes' ?_)
      intro key route
      have below := meet (.field key :: route)
      rwa [Node.at?, Node.at?, Node.at?, Node.below?_field, Node.below?_field,
        Node.below?_field] at below
  | .mk .null _, _, _, _, within, within', meet
  | .mk (.boolean _) _, _, _, _, within, within', meet
  | .mk (.integer _) _, _, _, _, within, within', meet
  | .mk (.decimal _) _, _, _, _, within, within', meet
  | .mk (.text _) _, _, _, _, within, within', meet
  | .mk (.expression _) _, _, _, _, within, within', meet
  | .mk (.lambda _ _ _) _, _, _, _, within, within', meet =>
      congruent.lift_leaf Kind.noConfusion Kind.noConfusion within within' (meet [])

theorem lift_entries (congruent : Congruent related) : ∀ (entries : List Node)
    {firsts seconds : List Node}, entriesDistinct entries →
      List.Forall₂ Node.Within entries firsts → List.Forall₂ Node.Within entries seconds →
      (∀ (index : Nat) (route : List Step),
        Meet related (entries[index]?.bind fun entry : Node => entry.at? route)
          (firsts[index]?.bind fun entry : Node => entry.at? route)
          (seconds[index]?.bind fun entry : Node => entry.at? route)) →
      List.Forall₂ related firsts seconds
  | [], _, _, _, .nil, .nil, _ => .nil
  | entry :: entries, _, _, distinct, .cons here others, .cons here' others', meet => by
      rw [entriesDistinct, Bool.and_eq_true] at distinct
      refine .cons (congruent.lift entry distinct.1 here here' (meet 0)) ?_
      exact congruent.lift_entries entries distinct.2 others others' fun index => meet (index + 1)

theorem lift_fields (congruent : Congruent related) : ∀ (fields : List (String × Node))
    {firsts seconds : List (String × Node)}, fieldsDistinct fields →
      List.Forall₂ (fun field first => field.1 = first.1 ∧ field.2.Within first.2) fields firsts →
      List.Forall₂ (fun field second => field.1 = second.1 ∧ field.2.Within second.2)
        fields seconds →
      (∀ (key : String) (route : List Step),
        Meet related ((fields.lookup key).bind fun field : Node => field.at? route)
          ((firsts.lookup key).bind fun field : Node => field.at? route)
          ((seconds.lookup key).bind fun field : Node => field.at? route)) →
      List.Forall₂ (fun first second => first.1 = second.1 ∧ related first.2 second.2)
        firsts seconds
  | [], _, _, _, .nil, .nil, _ => .nil
  | (key, field) :: fields, (_, first) :: firsts, (_, second) :: seconds, distinct,
      .cons ⟨same, here⟩ others, .cons ⟨same', here'⟩ others', meet => by
      cases same
      cases same'
      rcases fieldsDistinct_cons.mp distinct with ⟨fresh, whole, distinct⟩
      refine .cons ⟨rfl, congruent.lift field whole here here' fun route => ?_⟩ ?_
      · have below := meet key route
        rwa [List.lookup_cons_self, List.lookup_cons_self, List.lookup_cons_self] at below
      · refine congruent.lift_fields fields distinct others others' fun other route => ?_
        by_cases equal : other = key
        · intro leaf found
          rw [equal, fresh] at found
          cases found
        · have below := meet other route
          have different : (other == key) = false := beq_eq_false_iff_ne.mpr equal
          rwa [List.lookup_cons, List.lookup_cons, List.lookup_cons, different] at below
end

end Congruent

end Stencil
