import Stencil.Proofs.Node.Lookup
import Stencil.Proofs.Node.Masked

namespace Stencil

/-! Trees that are further along. A tree is refined by another one that has anything
at all where it is not resolved, and the same elsewhere: values, annotations, keys
in their order, and lengths of lists. -/

mutual
def Value.RefinedBy : Value → Value → Prop
  | .list entries, .list later => entriesRefined entries later
  | .map fields, .map later => fieldsRefined fields later
  | value, later => value = later
termination_by structural value => value

def Node.RefinedBy : Node → Node → Prop
  | .mk value annotations, later =>
      value.isLocallyResolved = false ∨
        annotations = later.annotations ∧ value.RefinedBy later.value
termination_by structural node => node

def entriesRefined : List Node → List Node → Prop
  | [], [] => True
  | entry :: entries, later :: laters => entry.RefinedBy later ∧ entriesRefined entries laters
  | _, _ => False
termination_by structural entries => entries

def fieldsRefined : List (String × Node) → List (String × Node) → Prop
  | [], [] => True
  | (key, field) :: fields, (key', later) :: laters =>
      key = key' ∧ field.RefinedBy later ∧ fieldsRefined fields laters
  | _, _ => False
termination_by structural fields => fields
end

/-! A list is settled when none of its entries, and no name of an entry, is still an
expression: which entry a step leads to can then not change any more. -/

/-- Neither the entry itself nor its name is an expression. -/
def Node.isSettledEntry (entry : Node) : Bool :=
  entry.isLocallyResolved && (entry.get? "name").all Node.isLocallyResolved

mutual
def Value.listsSettled : Value → Bool
  | .list entries => entriesSettled entries
  | .map fields => fieldsSettled fields
  | _ => true

/-- All lists of a tree are settled. -/
def Node.listsSettled : Node → Bool
  | .mk value _ => value.listsSettled

def entriesSettled : List Node → Bool
  | [] => true
  | entry :: entries => entry.isSettledEntry && entry.listsSettled && entriesSettled entries

def fieldsSettled : List (String × Node) → Bool
  | [] => true
  | (_, field) :: fields => field.listsSettled && fieldsSettled fields
end

/-! ## An order -/

mutual
theorem Value.RefinedBy.refl : ∀ value : Value, value.RefinedBy value
  | .list entries => entriesRefined.refl entries
  | .map fields => fieldsRefined.refl fields
  | .null | .boolean _ | .integer _ | .decimal _ | .text _ | .expression _ | .lambda _ _ _ => by
      simp [Value.RefinedBy]

theorem Node.RefinedBy.refl : ∀ node : Node, node.RefinedBy node
  | .mk value _ => Or.inr ⟨rfl, Value.RefinedBy.refl value⟩

theorem entriesRefined.refl : ∀ entries, entriesRefined entries entries
  | [] => trivial
  | entry :: entries => ⟨Node.RefinedBy.refl entry, entriesRefined.refl entries⟩

theorem fieldsRefined.refl : ∀ fields, fieldsRefined fields fields
  | [] => trivial
  | (_, field) :: fields => ⟨rfl, Node.RefinedBy.refl field, fieldsRefined.refl fields⟩
end

theorem Value.RefinedBy.isLocallyResolved {value later : Value} (refined : value.RefinedBy later) :
    later.isLocallyResolved = value.isLocallyResolved := by
  cases value <;> cases later <;> simp_all [Value.RefinedBy, Value.isLocallyResolved]

theorem Node.RefinedBy.inner {node later : Node} (refined : node.RefinedBy later)
    (resolved : node.isLocallyResolved) :
    node.annotations = later.annotations ∧ node.value.RefinedBy later.value := by
  rcases node with ⟨value, annotations⟩
  rcases refined with unresolved | inner
  · simp_all [Node.isLocallyResolved]
  · exact inner

theorem Node.RefinedBy.isLocallyResolved {node later : Node} (refined : node.RefinedBy later)
    (resolved : node.isLocallyResolved) : later.isLocallyResolved := by
  have inner := (refined.inner resolved).2.isLocallyResolved
  exact inner.trans resolved

mutual
theorem Value.RefinedBy.trans : ∀ {first second third : Value},
    first.RefinedBy second → second.RefinedBy third → first.RefinedBy third
  | .list _, .list _, .list _, before, after => entriesRefined.trans before after
  | .map _, .map _, .map _, before, after => fieldsRefined.trans before after
  | .null, second, third, before, after | .boolean _, second, third, before, after
  | .integer _, second, third, before, after | .decimal _, second, third, before, after
  | .text _, second, third, before, after | .expression _, second, third, before, after
  | .lambda _ _ _, second, third, before, after => by
      cases second <;> simp_all [Value.RefinedBy]
termination_by structural first => first

theorem Node.RefinedBy.trans : ∀ {first second third : Node},
    first.RefinedBy second → second.RefinedBy third → first.RefinedBy third
  | .mk value annotations, second, third, before, after => by
      cases resolved : value.isLocallyResolved with
      | false => exact .inl resolved
      | true =>
          rcases before.inner resolved with ⟨same, inner⟩
          rcases after.inner (before.isLocallyResolved resolved) with ⟨same', inner'⟩
          exact .inr ⟨same.trans same', Value.RefinedBy.trans inner inner'⟩
termination_by structural first => first

theorem entriesRefined.trans : ∀ {first second third : List Node},
    entriesRefined first second → entriesRefined second third → entriesRefined first third
  | [], [], [], _, _ => trivial
  | _ :: _, _ :: _, _ :: _, before, after =>
      ⟨Node.RefinedBy.trans before.1 after.1, entriesRefined.trans before.2 after.2⟩
termination_by structural first => first

theorem fieldsRefined.trans : ∀ {first second third : List (String × Node)},
    fieldsRefined first second → fieldsRefined second third → fieldsRefined first third
  | [], [], [], _, _ => trivial
  | _ :: _, _ :: _, _ :: _, before, after =>
      ⟨before.1.trans after.1, Node.RefinedBy.trans before.2.1 after.2.1,
        fieldsRefined.trans before.2.2 after.2.2⟩
termination_by structural first => first
end

/-! What is resolved stays as it is. -/

mutual
theorem Value.RefinedBy.eq_of_isResolved : ∀ {value later : Value},
    value.RefinedBy later → value.isResolved → later = value
  | .list _, .list _, refined, resolved => by
      rw [entriesRefined.eq_of_resolved refined resolved]
  | .map _, .map _, refined, resolved => by
      rw [fieldsRefined.eq_of_resolved refined resolved]
  | .null, later, refined, _ | .boolean _, later, refined, _ | .integer _, later, refined, _
  | .decimal _, later, refined, _ | .text _, later, refined, _ | .expression _, later, refined, _
  | .lambda _ _ _, later, refined, _ => by
      cases later <;> simp_all [Value.RefinedBy]

theorem Node.RefinedBy.eq_of_isResolved : ∀ {node later : Node},
    node.RefinedBy later → node.isResolved → later = node
  | .mk value annotations, .mk later _, refined, resolved => by
      rcases refined with unresolved | ⟨same, inner⟩
      · cases value <;> simp_all [Value.isLocallyResolved, Node.isResolved, Value.isResolved]
      · cases same
        have inner : value.RefinedBy later := inner
        rw [Value.RefinedBy.eq_of_isResolved inner resolved, Node.annotations_mk]

theorem entriesRefined.eq_of_resolved : ∀ {entries laters : List Node},
    entriesRefined entries laters → entriesResolved entries → laters = entries
  | [], [], _, _ => rfl
  | entry :: entries, later :: laters, refined, resolved => by
      rw [entriesResolved, Bool.and_eq_true] at resolved
      rw [Node.RefinedBy.eq_of_isResolved refined.1 resolved.1,
        entriesRefined.eq_of_resolved refined.2 resolved.2]

theorem fieldsRefined.eq_of_resolved : ∀ {fields laters : List (String × Node)},
    fieldsRefined fields laters → fieldsResolved fields → laters = fields
  | [], [], _, _ => rfl
  | (_, field) :: fields, (_, later) :: laters, refined, resolved => by
      rw [fieldsResolved, Bool.and_eq_true] at resolved
      rw [refined.1, Node.RefinedBy.eq_of_isResolved refined.2.1 resolved.1,
        fieldsRefined.eq_of_resolved refined.2.2 resolved.2]
end

/-! ## Looking up -/

theorem fieldsRefined.lookup {fields laters : List (String × Node)}
    (refined : fieldsRefined fields laters) (key : String) :
    (fields.lookup key = none ∧ laters.lookup key = none) ∨
      ∃ field later, fields.lookup key = some field ∧ laters.lookup key = some later ∧
        field.RefinedBy later := by
  induction fields generalizing laters with
  | nil =>
      cases laters with
      | nil => exact .inl ⟨rfl, rfl⟩
      | cons later laters => exact refined.elim
  | cons field fields induction =>
      cases laters with
      | nil => exact refined.elim
      | cons later laters =>
          rcases field with ⟨first, field⟩
          rcases later with ⟨first', later⟩
          rcases refined with ⟨same, here, rest⟩
          subst same
          rw [List.lookup_cons, List.lookup_cons]
          cases key == first with
          | true => exact .inr ⟨field, later, rfl, rfl, here⟩
          | false => exact induction rest

theorem entriesRefined.get {entries laters : List Node} (refined : entriesRefined entries laters)
    {index : Nat} {entry : Node} (held : entries[index]? = some entry) :
    ∃ later, laters[index]? = some later ∧ entry.RefinedBy later := by
  induction entries generalizing laters index with
  | nil => cases held
  | cons first entries induction =>
      cases laters with
      | nil => exact refined.elim
      | cons later laters =>
          cases index with
          | zero =>
              cases held
              exact ⟨later, rfl, refined.1⟩
          | succ index => exact induction refined.2 held

theorem lookup_settled {fields : List (String × Node)} {key : String} {field : Node}
    (settled : fieldsSettled fields) (found : fields.lookup key = some field) :
    field.listsSettled := by
  induction fields with
  | nil => cases found
  | cons entry fields induction =>
      rcases entry with ⟨first, here⟩
      rw [fieldsSettled, Bool.and_eq_true] at settled
      rw [List.lookup_cons] at found
      cases same : key == first with
      | true => simp_all
      | false => exact induction settled.2 (by simpa [same] using found)

theorem member_settled {entries : List Node} {entry : Node} (settled : entriesSettled entries)
    (member : entry ∈ entries) : entry.isSettledEntry ∧ entry.listsSettled := by
  induction entries with
  | nil => cases member
  | cons first entries induction =>
      rw [entriesSettled, Bool.and_eq_true, Bool.and_eq_true] at settled
      rcases List.mem_cons.mp member with rfl | member
      · exact settled.1
      · exact induction settled.2 member

/-- The name of a settled entry stays. -/
theorem Node.RefinedBy.name? {entry later : Node} (refined : entry.RefinedBy later)
    (settled : entry.isSettledEntry) : later.name? = entry.name? := by
  unfold Node.isSettledEntry at settled
  rw [Bool.and_eq_true] at settled
  have inner := (refined.inner settled.1).2
  rcases entry with ⟨value, annotations⟩
  rcases later with ⟨value', annotations'⟩
  cases value with
  | map fields =>
      cases value' with
      | map laters =>
          unfold Node.name? Node.findText?
          simp only [Node.get?, value_mk] at settled ⊢
          rcases fieldsRefined.lookup inner "name" with ⟨absent, absent'⟩ | found
          · rw [absent, absent']
          · rcases found with ⟨field, later, found, found', here⟩
            rw [found, Option.all_some] at settled
            have held := (here.inner settled.2).2
            rw [found, found', Option.map_some, Option.map_some]
            cases first : field.value <;> cases second : later.value <;>
              simp_all [Value.RefinedBy]
      | _ => cases inner
  | list entries =>
      cases value' with
      | list laters => rfl
      | _ => cases inner
  | _ => cases value' <;> simp_all [Value.RefinedBy, Node.name?, Node.findText?, Node.get?]

/-- How a path leads further in a refined tree: anything may be where it had to wait. -/
inductive Lookup.RefinedBy : Lookup → Lookup → Prop where
  | unresolved (later : Lookup) : RefinedBy .unresolved later
  | found {node later : Node} (settled : node.listsSettled) (refined : node.RefinedBy later) :
      RefinedBy (.found node) (.found later)
  | missing : RefinedBy .missing .missing

theorem Lookup.RefinedBy.ofEntry {entries laters : List Node}
    (settled : entriesSettled entries) (refined : entriesRefined entries laters)
    (index : Nat) :
    (Lookup.ofOption entries[index]?).RefinedBy (.ofOption laters[index]?) := by
  induction entries generalizing laters index with
  | nil =>
      cases laters with
      | nil => exact .missing
      | cons later laters => exact refined.elim
  | cons entry entries induction =>
      cases laters with
      | nil => exact refined.elim
      | cons later laters =>
          rw [entriesSettled, Bool.and_eq_true, Bool.and_eq_true] at settled
          cases index with
          | zero => exact .found settled.1.2 refined.1
          | succ index => exact induction settled.2 refined.2 index

theorem Lookup.RefinedBy.ofName {entries laters : List Node}
    (settled : entriesSettled entries) (refined : entriesRefined entries laters)
    (name : String) :
    (Lookup.ofOption (entries.find? fun entry => entry.name? = some name)).RefinedBy
      (.ofOption (laters.find? fun entry => entry.name? = some name)) := by
  induction entries generalizing laters with
  | nil =>
      cases laters with
      | nil => exact .missing
      | cons later laters => exact refined.elim
  | cons entry entries induction =>
      cases laters with
      | nil => exact refined.elim
      | cons later laters =>
          rw [entriesSettled, Bool.and_eq_true, Bool.and_eq_true] at settled
          rw [List.find?_cons, List.find?_cons, refined.1.name? settled.1.1]
          cases decide (entry.name? = some name) with
          | true => exact .found settled.1.2 refined.1
          | false => exact induction settled.2 refined.2

namespace Node

theorem RefinedBy.child {node later : Node} (settled : node.listsSettled)
    (refined : node.RefinedBy later) (step : String) :
    (node.child step).RefinedBy (later.child step) := by
  cases resolved : node.isLocallyResolved with
  | false =>
      unfold Node.child
      rw [resolved]
      exact .unresolved _
  | true =>
      have resolved' := refined.isLocallyResolved resolved
      have inner := (refined.inner resolved).2
      rcases node with ⟨value, annotations⟩
      rcases later with ⟨value', annotations'⟩
      unfold Node.child
      rw [resolved, resolved']
      cases value with
      | map fields =>
          cases value' with
          | map laters =>
              simp only [value_mk, Bool.not_true]
              rcases fieldsRefined.lookup inner step with ⟨absent, absent'⟩ | found
              · rw [absent, absent']
                rcases fieldsRefined.lookup inner markerKey with ⟨plain, plain'⟩ | found
                · rw [plain, plain']
                  exact .missing
                · rcases found with ⟨marker, later, held, held', here⟩
                  rw [held, held']
                  cases pending : marker.isResolved with
                  | false => simpa [pending] using .unresolved _
                  | true =>
                      have same := here.eq_of_isResolved pending
                      simpa [same, pending] using .missing
              · rcases found with ⟨field, later, found, found', here⟩
                rw [found, found']
                exact .found (lookup_settled settled found) here
          | _ => cases inner
      | list entries =>
          cases value' with
          | list laters =>
              unfold listEntry
              simp only [value_mk, Bool.not_true]
              cases indexOf? step with
              | some index => exact .ofEntry settled inner index
              | none => exact .ofName settled inner step
          | _ => cases inner
      | _ =>
          cases value' <;> simp_all [Value.RefinedBy]
          exact .missing

theorem RefinedBy.find {node later : Node} (settled : node.listsSettled)
    (refined : node.RefinedBy later) (path : List String) :
    (node.find path).RefinedBy (later.find path) := by
  induction path generalizing node later with
  | nil => exact .found settled refined
  | cons step rest induction =>
      have next := refined.child settled step
      unfold Node.find
      generalize node.child step = first at next ⊢
      generalize later.child step = second at next ⊢
      cases next with
      | unresolved => exact .unresolved _
      | found settled refined => exact induction settled refined
      | missing => exact .missing

end Node

/-! The lists of resolved trees are settled. -/

theorem Node.isSettledEntry_of_isResolved {entry : Node} (resolved : entry.isResolved) :
    entry.isSettledEntry := by
  unfold Node.isSettledEntry
  rw [Node.isLocallyResolved_of_isResolved resolved, Bool.true_and]
  rcases entry with ⟨value, annotations⟩
  cases value with
  | map fields =>
      unfold Node.get?
      cases found : fields.lookup "name" with
      | none => simp [found]
      | some field =>
          simpa [found] using Node.isLocallyResolved_of_isResolved (lookup_resolved resolved found)
  | _ => rfl

mutual
theorem Value.listsSettled_of_isResolved : ∀ {value : Value}, value.isResolved →
    value.listsSettled
  | .list _, resolved => entriesSettled_of_resolved resolved
  | .map _, resolved => fieldsSettled_of_resolved resolved
  | .null, _ | .boolean _, _ | .integer _, _ | .decimal _, _ | .text _, _ | .expression _, _
  | .lambda _ _ _, _ => rfl

theorem Node.listsSettled_of_isResolved : ∀ {node : Node}, node.isResolved → node.listsSettled
  | .mk _ _, resolved => Value.listsSettled_of_isResolved resolved

theorem entriesSettled_of_resolved : ∀ {entries : List Node}, entriesResolved entries →
    entriesSettled entries
  | [], _ => rfl
  | _ :: _, resolved => by
      rw [entriesResolved, Bool.and_eq_true] at resolved
      rw [entriesSettled, Bool.and_eq_true, Bool.and_eq_true]
      exact ⟨⟨Node.isSettledEntry_of_isResolved resolved.1,
        Node.listsSettled_of_isResolved resolved.1⟩, entriesSettled_of_resolved resolved.2⟩

theorem fieldsSettled_of_resolved : ∀ {fields : List (String × Node)}, fieldsResolved fields →
    fieldsSettled fields
  | [], _ => rfl
  | (_, _) :: _, resolved => by
      rw [fieldsResolved, Bool.and_eq_true] at resolved
      rw [fieldsSettled, Bool.and_eq_true]
      exact ⟨Node.listsSettled_of_isResolved resolved.1, fieldsSettled_of_resolved resolved.2⟩
end

/-! Masking keeps the order, and changes nothing about settled lists. -/

section
variable (aspects : Aspects)

mutual
theorem Value.RefinedBy.masked : ∀ {value later : Value}, value.RefinedBy later →
    (value.masked aspects).RefinedBy (later.masked aspects)
  | .list _, .list _, refined => entriesRefined.masked refined
  | .map _, .map _, refined => fieldsRefined.masked refined
  | .null, later, refined | .boolean _, later, refined | .integer _, later, refined
  | .decimal _, later, refined | .text _, later, refined | .expression _, later, refined
  | .lambda _ _ _, later, refined => by
      cases later <;> simp_all [Value.RefinedBy, Value.masked]

theorem Node.RefinedBy.masked : ∀ {node later : Node}, node.RefinedBy later →
    (node.masked aspects).RefinedBy (later.masked aspects)
  | .mk value annotations, .mk later annotations', refined => by
      rcases refined with unresolved | ⟨same, inner⟩
      · exact .inl (by rw [Value.isLocallyResolved_masked, unresolved])
      · exact .inr ⟨congrArg (Annotations.masked aspects) same, Value.RefinedBy.masked inner⟩

theorem entriesRefined.masked : ∀ {entries laters : List Node}, entriesRefined entries laters →
    entriesRefined (entriesMasked aspects entries) (entriesMasked aspects laters)
  | [], [], _ => trivial
  | _ :: _, _ :: _, refined => ⟨Node.RefinedBy.masked refined.1, entriesRefined.masked refined.2⟩

theorem fieldsRefined.masked : ∀ {fields laters : List (String × Node)},
    fieldsRefined fields laters →
      fieldsRefined (fieldsMasked aspects fields) (fieldsMasked aspects laters)
  | [], [], _ => trivial
  | (_, _) :: _, (_, _) :: _, refined =>
      ⟨refined.1, Node.RefinedBy.masked refined.2.1, fieldsRefined.masked refined.2.2⟩
end

end

section
variable (aspects : Aspects)

@[simp] theorem Node.isSettledEntry_masked (entry : Node) :
    (entry.masked aspects).isSettledEntry = entry.isSettledEntry := by
  unfold Node.isSettledEntry
  rw [Node.get?_masked]
  cases entry.get? "name" <;> simp

mutual
theorem Value.listsSettled_masked : ∀ value : Value,
    (value.masked aspects).listsSettled = value.listsSettled
  | .list entries => entriesSettled_masked entries
  | .map fields => fieldsSettled_masked fields
  | .null | .boolean _ | .integer _ | .decimal _ | .text _ | .expression _ | .lambda _ _ _ => rfl

@[simp] theorem Node.listsSettled_masked : ∀ node : Node,
    (node.masked aspects).listsSettled = node.listsSettled
  | .mk value _ => value.listsSettled_masked

theorem entriesSettled_masked : ∀ entries,
    entriesSettled (entriesMasked aspects entries) = entriesSettled entries
  | [] => rfl
  | entry :: entries => by
      rw [entriesMasked, entriesSettled, entriesSettled, entry.isSettledEntry_masked,
        entry.listsSettled_masked, entriesSettled_masked entries]

@[simp] theorem fieldsSettled_masked : ∀ fields,
    fieldsSettled (fieldsMasked aspects fields) = fieldsSettled fields
  | [] => rfl
  | (_, field) :: fields => by
      rw [fieldsMasked, fieldsSettled, fieldsSettled, field.listsSettled_masked,
        fieldsSettled_masked fields]
end

end

end Stencil
