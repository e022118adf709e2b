import Stencil.Expression.Parse
import Stencil.Proofs.Node.Comparison
import Stencil.Proofs.Node.Lookup

namespace Stencil

/-! Trees whose expressions only select among what is there: they make no text in which
another expression could stand, and they call nothing. -/

/-- The operators that make no number and no text. -/
def Operator.selects : Operator → Bool
  | .add | .subtract | .multiply | .divide | .modulo | .concatenation => false
  | _ => true

mutual
/-- Literals, lists, references, merges, conditions, comparisons and preferences. -/
def Expression.isSelective : Expression → Bool
  | .nil | .boolean _ | .integer _ | .reference _ | .merge _ _ _ | .auto _ => true
  | .text text => (Text.embedded? text).isNone
  | .list entries => allSelective entries
  | .group inner | .not inner | .prefer inner => inner.isSelective
  | .binary operator left right =>
      operator.selects && left.isSelective && right.isSelective
  | .conditional condition consequence alternative =>
      condition.isSelective && consequence.isSelective && alternative.isSelective
  | .call _ _ | .lambda _ _ | .mapping _ _ => false

def allSelective : List Expression → Bool
  | [] => true
  | entry :: entries => entry.isSelective && allSelective entries
end

mutual
/-- Every expression in the tree only selects. A text that cannot be read is no expression. -/
def Value.IsSelective : Value → Prop
  | .expression expression => expression.isSelective
  | .text text => ∀ source place expression, Text.embedded? text = some source →
      Expression.parse source place = .ok expression → expression.isSelective
  | .list entries => entriesSelective entries
  | .map fields => fieldsSelective fields
  | _ => True

def Node.IsSelective : Node → Prop
  | .mk value _ => value.IsSelective

def entriesSelective : List Node → Prop
  | [] => True
  | entry :: entries => entry.IsSelective ∧ entriesSelective entries

def fieldsSelective : List (String × Node) → Prop
  | [] => True
  | (_, field) :: fields => field.IsSelective ∧ fieldsSelective fields
end

/-- A text that is read as an expression that only selects. -/
theorem Value.isSelective_text {text source : String} {expression : List String → Expression}
    (embedded : Text.embedded? text = some source)
    (parsed : ∀ place, Expression.parse source place = .ok (expression place))
    (selective : ∀ place, (expression place).isSelective) : (Value.text text).IsSelective := by
  intro source' place expression' embedded' parsed'
  rw [embedded, Option.some.injEq] at embedded'
  subst embedded'
  rw [parsed place, Except.ok.injEq] at parsed'
  subst parsed'
  exact selective place

/-! ## Sums over a tree -/

mutual
/-- The sum of what every leaf counts for. -/
def Value.sum (count : Value → Nat) : Value → Nat
  | .list entries => entriesSum count entries
  | .map fields => fieldsSum count fields
  | value => count value

def Node.sum (count : Value → Nat) : Node → Nat
  | .mk value _ => value.sum count

def entriesSum (count : Value → Nat) : List Node → Nat
  | [] => 0
  | entry :: entries => entry.sum count + entriesSum count entries

def fieldsSum (count : Value → Nat) : List (String × Node) → Nat
  | [] => 0
  | (_, field) :: fields => field.sum count + fieldsSum count fields
end

theorem entriesSum_append (count : Value → Nat) (first second : List Node) :
    entriesSum count (first ++ second) = entriesSum count first + entriesSum count second := by
  induction first with
  | nil => simp [entriesSum]
  | cons entry first induction =>
      rw [List.cons_append, entriesSum, entriesSum, induction, Nat.add_assoc]

theorem fieldsSum_append (count : Value → Nat) (first second : List (String × Node)) :
    fieldsSum count (first ++ second) = fieldsSum count first + fieldsSum count second := by
  induction first with
  | nil => simp [fieldsSum]
  | cons field first induction =>
      rw [List.cons_append, fieldsSum, fieldsSum, induction, Nat.add_assoc]

/-! The sum of sums is the sum over the sums of every leaf. -/

mutual
theorem Value.sum_add (first second : Value → Nat) : ∀ value : Value,
    value.sum (fun leaf => first leaf + second leaf) = value.sum first + value.sum second
  | .list entries => entriesSum_add first second entries
  | .map fields => fieldsSum_add first second fields
  | .null | .boolean _ | .integer _ | .decimal _ | .text _ | .expression _ | .lambda _ _ _ => rfl

theorem Node.sum_add (first second : Value → Nat) : ∀ node : Node,
    node.sum (fun leaf => first leaf + second leaf) = node.sum first + node.sum second
  | .mk value _ => value.sum_add first second

theorem entriesSum_add (first second : Value → Nat) : ∀ entries : List Node,
    entriesSum (fun leaf => first leaf + second leaf) entries =
      entriesSum first entries + entriesSum second entries
  | [] => rfl
  | entry :: entries => by
      rw [entriesSum, entriesSum, entriesSum, entry.sum_add, entriesSum_add]
      omega

theorem fieldsSum_add (first second : Value → Nat) : ∀ fields : List (String × Node),
    fieldsSum (fun leaf => first leaf + second leaf) fields =
      fieldsSum first fields + fieldsSum second fields
  | [] => rfl
  | (_, field) :: fields => by
      rw [fieldsSum, fieldsSum, fieldsSum, field.sum_add, fieldsSum_add]
      omega
end

namespace Value

/-- A text with an embedded expression. -/
def embeds : Value → Nat
  | .text value => if (Text.embedded? value).isSome then 1 else 0
  | _ => 0

/-- An expression that is not evaluated yet. -/
def waits : Value → Nat
  | .expression _ => 1
  | _ => 0

/-- How often a leaf may still change: a text becomes an expression before a value. -/
def changes (value : Value) : Nat := value.embeds + value.embeds + value.waits

end Value

/-- How many passes may still change a tree. -/
def Node.weight (node : Node) : Nat := node.sum Value.changes

theorem Node.weight_eq (node : Node) :
    node.weight = 2 * node.sum Value.embeds + node.sum Value.waits := by
  unfold weight Value.changes
  rw [node.sum_add (fun leaf => leaf.embeds + leaf.embeds), node.sum_add]
  omega

theorem Value.changes_of_unresolved {value : Value} (unresolved : value.isLocallyResolved = false) :
    0 < value.changes := by
  cases value with
  | text value =>
      have some : (Text.embedded? value).isSome := by
        simpa [isLocallyResolved] using unresolved
      simp [changes, embeds, waits, some]
  | expression expression => exact Nat.one_pos
  | _ => cases unresolved

mutual
theorem Value.sum_of_isResolved : ∀ {value : Value}, value.isResolved → value.sum Value.changes = 0
  | .list _, resolved => entriesSum_of_resolved resolved
  | .map _, resolved => fieldsSum_of_resolved resolved
  | .text text, resolved => by
      have none : Text.embedded? text = none := by
        simpa [Value.isResolved, Value.isLocallyResolved] using resolved
      simp [Value.sum, Value.changes, Value.embeds, Value.waits, none]
  | .expression _, resolved => by cases resolved
  | .null, _ | .boolean _, _ | .integer _, _ | .decimal _, _ | .lambda _ _ _, _ => rfl

theorem Node.sum_of_isResolved : ∀ {node : Node}, node.isResolved → node.sum Value.changes = 0
  | .mk _ _, resolved => Value.sum_of_isResolved resolved

theorem entriesSum_of_resolved : ∀ {entries : List Node}, entriesResolved entries →
    entriesSum Value.changes entries = 0
  | [], _ => rfl
  | _ :: _, resolved => by
      rw [entriesResolved, Bool.and_eq_true] at resolved
      rw [entriesSum, Node.sum_of_isResolved resolved.1, entriesSum_of_resolved resolved.2]

theorem fieldsSum_of_resolved : ∀ {fields : List (String × Node)}, fieldsResolved fields →
    fieldsSum Value.changes fields = 0
  | [], _ => rfl
  | (_, _) :: _, resolved => by
      rw [fieldsResolved, Bool.and_eq_true] at resolved
      rw [fieldsSum, Node.sum_of_isResolved resolved.1, fieldsSum_of_resolved resolved.2]
end

/-! ## Orderly trees -/

/-- Distinct keys, numbers only, and expressions that only select. -/
structure Value.IsOrderly (value : Value) : Prop where
  distinct : value.keysDistinct
  numbers : value.withoutNaN
  selective : value.IsSelective

def Node.IsOrderly (node : Node) : Prop := node.value.IsOrderly

theorem Node.isSelective_value {node : Node} : node.value.IsSelective ↔ node.IsSelective := by
  rcases node with ⟨value, annotations⟩
  exact Iff.rfl

theorem Node.isOrderly_iff {node : Node} :
    node.IsOrderly ↔ node.keysDistinct ∧ node.withoutNaN ∧ node.IsSelective := by
  rw [← node.value_keysDistinct, ← node.value_withoutNaN, ← node.isSelective_value]
  exact ⟨fun orderly => ⟨orderly.distinct, orderly.numbers, orderly.selective⟩,
    fun ⟨distinct, numbers, selective⟩ => ⟨distinct, numbers, selective⟩⟩

theorem entriesSelective_iff {entries : List Node} :
    entriesSelective entries ↔ ∀ entry ∈ entries, entry.IsSelective := by
  induction entries with
  | nil => simp [entriesSelective]
  | cons entry entries induction => rw [entriesSelective, induction, List.forall_mem_cons]

theorem fieldsSelective_iff {fields : List (String × Node)} :
    fieldsSelective fields ↔ ∀ entry ∈ fields, entry.2.IsSelective := by
  induction fields with
  | nil => simp [fieldsSelective]
  | cons entry fields induction => rw [fieldsSelective, induction, List.forall_mem_cons]

namespace Value

theorem isOrderly_list {entries : List Node} :
    (list entries).IsOrderly ↔ ∀ entry ∈ entries, entry.IsOrderly := by
  constructor
  · intro orderly entry member
    exact Node.isOrderly_iff.mpr ⟨entriesDistinct_iff.mp orderly.distinct entry member,
      entriesWithoutNaN_iff.mp orderly.numbers entry member,
      entriesSelective_iff.mp orderly.selective entry member⟩
  · intro all
    have parts := fun entry member => Node.isOrderly_iff.mp (all entry member)
    exact ⟨entriesDistinct_iff.mpr fun entry member => (parts entry member).1,
      entriesWithoutNaN_iff.mpr fun entry member => (parts entry member).2.1,
      entriesSelective_iff.mpr fun entry member => (parts entry member).2.2⟩

theorem isOrderly_map {fields : List (String × Node)} :
    (map fields).IsOrderly ↔ fieldsDistinct fields ∧ ∀ entry ∈ fields, entry.2.IsOrderly := by
  constructor
  · intro orderly
    refine ⟨orderly.distinct, fun entry member => ?_⟩
    exact Node.isOrderly_iff.mpr ⟨member_of_fieldsDistinct orderly.distinct entry member,
      fieldsWithoutNaN_iff.mp orderly.numbers entry member,
      fieldsSelective_iff.mp orderly.selective entry member⟩
  · rintro ⟨distinct, all⟩
    have parts := fun entry member => Node.isOrderly_iff.mp (all entry member)
    exact ⟨distinct, fieldsWithoutNaN_iff.mpr fun entry member => (parts entry member).2.1,
      fieldsSelective_iff.mpr fun entry member => (parts entry member).2.2⟩

/-- An expression is orderly when it only selects. -/
theorem isOrderly_expression {expression : Expression} (selective : expression.isSelective) :
    (Value.expression expression).IsOrderly := ⟨rfl, rfl, selective⟩

end Value

theorem Node.IsOrderly.same_self {node : Node} (orderly : node.IsOrderly) : node.same node := by
  rcases node with ⟨value, annotations⟩
  exact value.same_self orderly.distinct orderly.numbers

/-! What is resolved holds no expression. -/

mutual
theorem Value.isSelective_of_isResolved : ∀ {value : Value}, value.isResolved →
    value.IsSelective
  | .list _, resolved => entriesSelective_of_resolved resolved
  | .map _, resolved => fieldsSelective_of_resolved resolved
  | .text text, resolved => by
      have none : Text.embedded? text = none := by
        simpa [Value.isResolved, Value.isLocallyResolved] using resolved
      intro source place expression some
      rw [none] at some
      cases some
  | .expression _, resolved => by cases resolved
  | .null, _ | .boolean _, _ | .integer _, _ | .decimal _, _ | .lambda _ _ _, _ => trivial

theorem Node.isSelective_of_isResolved : ∀ {node : Node}, node.isResolved → node.IsSelective
  | .mk _ _, resolved => Value.isSelective_of_isResolved resolved

theorem entriesSelective_of_resolved : ∀ {entries : List Node}, entriesResolved entries →
    entriesSelective entries
  | [], _ => trivial
  | _ :: _, resolved => by
      rw [entriesResolved, Bool.and_eq_true] at resolved
      exact ⟨Node.isSelective_of_isResolved resolved.1, entriesSelective_of_resolved resolved.2⟩

theorem fieldsSelective_of_resolved : ∀ {fields : List (String × Node)}, fieldsResolved fields →
    fieldsSelective fields
  | [], _ => trivial
  | (_, _) :: _, resolved => by
      rw [fieldsResolved, Bool.and_eq_true] at resolved
      exact ⟨Node.isSelective_of_isResolved resolved.1, fieldsSelective_of_resolved resolved.2⟩
end

/-- Resolved and orderly: what an evaluation may leave in a tree. -/
def Value.IsSound (value : Value) : Prop := value.isResolved ∧ value.IsOrderly

theorem Value.isSound_of_isResolved {value : Value} (resolved : value.isResolved)
    (distinct : value.keysDistinct) (numbers : value.withoutNaN) : value.IsSound :=
  ⟨resolved, distinct, numbers, isSelective_of_isResolved resolved⟩

theorem Node.value_isResolved (node : Node) : node.value.isResolved = node.isResolved := by
  rcases node with ⟨value, annotations⟩
  rfl

theorem entriesResolved_iff {entries : List Node} :
    entriesResolved entries ↔ ∀ entry ∈ entries, entry.isResolved := by
  induction entries with
  | nil => simp [entriesResolved]
  | cons entry entries induction =>
      rw [entriesResolved, Bool.and_eq_true, induction, List.forall_mem_cons]

theorem Value.isSound_list {entries : List Node} :
    (list entries).IsSound ↔ ∀ entry ∈ entries, entry.value.IsSound := by
  unfold IsSound
  rw [isOrderly_list, isResolved, entriesResolved_iff]
  constructor
  · rintro ⟨resolved, orderly⟩ entry member
    rw [entry.value_isResolved]
    exact ⟨resolved entry member, orderly entry member⟩
  · intro all
    refine ⟨fun entry member => ?_, fun entry member => (all entry member).2⟩
    rw [← entry.value_isResolved]
    exact (all entry member).1

theorem fieldsResolved_iff {fields : List (String × Node)} :
    fieldsResolved fields ↔ ∀ entry ∈ fields, entry.2.isResolved := by
  induction fields with
  | nil => simp [fieldsResolved]
  | cons entry fields induction =>
      rw [fieldsResolved, Bool.and_eq_true, induction, List.forall_mem_cons]

theorem Value.field_isSound {fields : List (String × Node)} (sound : (map fields).IsSound) :
    ∀ entry ∈ fields, entry.2.value.IsSound := by
  intro entry member
  have resolved := fieldsResolved_iff.mp sound.1 entry member
  rw [← entry.2.value_isResolved] at resolved
  exact ⟨resolved, (isOrderly_map.mp sound.2).2 entry member⟩

theorem Node.isOrderly_of_find {node next : Node} {path : List String} (orderly : node.IsOrderly)
    (found : node.find path = .found next) : next.IsOrderly := by
  refine find_induction (motive := Node.IsOrderly) ?_ orderly found
  intro node step next orderly found
  rcases child_cases found with
    ⟨fields, annotations, rfl, held⟩ | ⟨entries, annotations, rfl, held⟩
  · exact (Value.isOrderly_map.mp orderly).2 _ (member_of_lookup held)
  · exact Value.isOrderly_list.mp orderly _ (listEntry_member held)

end Stencil
