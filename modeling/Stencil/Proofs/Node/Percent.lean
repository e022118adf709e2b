import Stencil.Proofs.Expression.Percent
import Stencil.Proofs.Node.Comparison
import Stencil.Proofs.Node.Ordered

namespace Stencil

/-! Trees in which no percent sign stands: not in a text, nor in a key, nor in a written
expression. Annotations do not count. -/

mutual
def Value.withoutPercent : Value → Bool
  | .text value => Text.lacks '%' value
  | .list entries => entriesWithoutPercent entries
  | .map fields => fieldsWithoutPercent fields
  | .expression expression => expression.withoutPercent
  | .lambda parameters body captured =>
      (Expression.lambda parameters body).withoutPercent && fieldsWithoutPercent captured
  | _ => true

def Node.withoutPercent : Node → Bool
  | .mk value _ => value.withoutPercent

def entriesWithoutPercent : List Node → Bool
  | [] => true
  | entry :: entries => entry.withoutPercent && entriesWithoutPercent entries

def fieldsWithoutPercent : List (String × Node) → Bool
  | [] => true
  | (key, field) :: fields =>
      Text.lacks '%' key && field.withoutPercent && fieldsWithoutPercent fields
end

theorem Node.withoutPercent_eq (node : Node) : node.withoutPercent = node.value.withoutPercent := by
  cases node; rfl

theorem entriesWithoutPercent_iff {entries : List Node} :
    entriesWithoutPercent entries ↔ ∀ entry ∈ entries, entry.withoutPercent := by
  induction entries with
  | nil => simp [entriesWithoutPercent]
  | cons entry entries induction =>
      rw [entriesWithoutPercent, Bool.and_eq_true, induction, List.forall_mem_cons]

theorem fieldsWithoutPercent_iff {fields : List (String × Node)} :
    fieldsWithoutPercent fields ↔
      ∀ field ∈ fields, Text.lacks '%' field.1 ∧ field.2.withoutPercent := by
  induction fields with
  | nil => simp [fieldsWithoutPercent]
  | cons field fields induction =>
      rw [fieldsWithoutPercent, Bool.and_eq_true, Bool.and_eq_true, induction,
        List.forall_mem_cons]

theorem fieldsWithoutPercent_sorted (fields : List (String × Node)) :
    fieldsWithoutPercent (Table.sorted fields) = fieldsWithoutPercent fields := by
  rw [Bool.eq_iff_iff, fieldsWithoutPercent_iff, fieldsWithoutPercent_iff]
  simp only [Table.mem_sorted]

/-! The order of keys does not matter. -/

mutual
@[simp] theorem Value.withoutPercent_ordered :
    ∀ value : Value, value.ordered.withoutPercent = value.withoutPercent
  | .list entries => entriesWithoutPercent_ordered entries
  | .map fields => by
      rw [Value.ordered, Value.withoutPercent, Value.withoutPercent, fieldsWithoutPercent_sorted,
        fieldsWithoutPercent_ordered fields]
  | .lambda _ _ captured => by
      rw [Value.ordered, Value.withoutPercent, Value.withoutPercent,
        fieldsWithoutPercent_ordered captured]
  | .null | .boolean _ | .integer _ | .decimal _ | .text _ | .expression _ => rfl

@[simp] theorem Node.withoutPercent_ordered :
    ∀ node : Node, node.ordered.withoutPercent = node.withoutPercent
  | .mk value _ => value.withoutPercent_ordered

theorem entriesWithoutPercent_ordered :
    ∀ entries, entriesWithoutPercent (entriesOrdered entries) = entriesWithoutPercent entries
  | [] => rfl
  | entry :: entries => by
      rw [entriesOrdered, entriesWithoutPercent, entriesWithoutPercent,
        entry.withoutPercent_ordered, entriesWithoutPercent_ordered entries]

theorem fieldsWithoutPercent_ordered :
    ∀ fields, fieldsWithoutPercent (fieldsOrdered fields) = fieldsWithoutPercent fields
  | [] => rfl
  | (_, field) :: fields => by
      rw [fieldsOrdered, fieldsWithoutPercent, fieldsWithoutPercent, field.withoutPercent_ordered,
        fieldsWithoutPercent_ordered fields]
end

/-! ## Looking up -/

theorem lookup_withoutPercent {fields : List (String × Node)} {key : String} {field : Node}
    (free : fieldsWithoutPercent fields) (found : fields.lookup key = some field) :
    field.withoutPercent :=
  (fieldsWithoutPercent_iff.mp free _ (member_of_lookup found)).2

theorem Node.find_withoutPercent {node next : Node} {path : List String}
    (free : node.withoutPercent) (found : node.find path = .found next) :
    next.withoutPercent := by
  refine find_induction (motive := fun node => node.withoutPercent) ?_ free found
  intro node step next free found
  rcases child_cases found with ⟨fields, annotations, rfl, held⟩ | ⟨entries, annotations, rfl, held⟩
  · exact lookup_withoutPercent free held
  · exact entriesWithoutPercent_iff.mp free next (listEntry_member held)

/-! ## Tables that are put together -/

theorem mergeSorted_withoutPercent {table entries : List (String × Node)}
    (free : fieldsWithoutPercent table) (others : fieldsWithoutPercent entries) :
    fieldsWithoutPercent (Table.mergeSorted table entries) := by
  rw [fieldsWithoutPercent_iff] at free others ⊢
  intro entry member
  exact (Table.mem_mergeSorted member).elim (others entry) (free entry)

theorem ofList_withoutPercent {entries : List (String × Node)}
    (free : fieldsWithoutPercent entries) : fieldsWithoutPercent (Table.ofList entries) := by
  rw [fieldsWithoutPercent_iff] at free ⊢
  exact fun entry member => free entry (Table.mem_ofList member)

theorem zip_withoutPercent {names : List String} {entries : List Node}
    (named : ∀ name ∈ names, Text.lacks '%' name) (free : ∀ entry ∈ entries, entry.withoutPercent) :
    fieldsWithoutPercent (names.zip entries) := by
  rw [fieldsWithoutPercent_iff]
  rintro ⟨name, entry⟩ member
  have parts := List.of_mem_zip member
  exact ⟨named name parts.1, free entry parts.2⟩

/-! ## Written forms -/

namespace Number.Decimal

theorem positionalText_lacksPercent {digits : List Char} (none : '%' ∉ digits) (places : Int) :
    Text.lacks '%' (positionalText digits places "") := by
  have filled (count : Nat) : Text.lacks '%' (zeros count) := by
    rw [zeros, Text.lacks_ofList]
    exact fun member => absurd (List.eq_of_mem_replicate member) (by decide)
  have front (count : Nat) : '%' ∉ digits.take count := fun member =>
    none (List.mem_of_mem_take member)
  have back (count : Nat) : '%' ∉ digits.drop count := fun member =>
    none (List.mem_of_mem_drop member)
  unfold positionalText
  split
  · simp only [Text.lacks_append, Bool.and_eq_true, Text.lacks_ofList]
    exact ⟨⟨by decide, filled _⟩, none⟩
  · simp only
    split
    · simp only [Text.lacks_append, Bool.and_eq_true, Text.lacks_ofList]
      exact ⟨⟨none, filled _⟩, by decide⟩
    · simp only [Text.lacks_append, Bool.and_eq_true, Text.lacks_ofList]
      exact ⟨⟨front _, by decide⟩, back _⟩

theorem text_lacksPercent (number : Decimal) : Text.lacks '%' (number.text .plain) := by
  have sign : Text.lacks '%' (if number.negative then "-" else "") := by
    split <;> decide
  have digits (count : Nat) : '%' ∉ dropZeros (Nat.toDigits 10 count) := by
    intro member
    have member := Text.dropWhile_subset _ _ (List.mem_reverse.mp member)
    exact noDigit_percent.toDigits 10 count (List.mem_reverse.mp member)
  unfold text
  split
  · decide
  · simp only [Layout.plain, if_true]
    split
    · rw [Text.lacks_append, sign]
      decide
    · split
      · rw [Text.lacks_append, Text.lacks_append, sign]
        decide
      · rw [Text.lacks_append, sign]
        exact positionalText_lacksPercent (digits _) _

end Number.Decimal

theorem Value.text?_lacksPercent {value : Value} {text : String} (free : value.withoutPercent)
    (written : value.text? = some text) : Text.lacks '%' text := by
  cases value with
  | null =>
      cases written
      decide
  | boolean value =>
      cases written
      split <;> decide
  | integer value =>
      cases written
      exact toString_lacksPercent value.toInt
  | decimal value =>
      cases written
      exact value.text_lacksPercent
  | text value =>
      cases written
      exact free
  | lambda parameters body captured =>
      cases written
      rw [withoutPercent, Bool.and_eq_true] at free
      exact free.1
  | list _ | map _ | expression _ => cases written

/-- The expression at a node has no percent sign either. -/
theorem Node.expression?_withoutPercent {node : Node} {place : List String}
    {expression : Expression} (free : node.withoutPercent)
    (holds : node.expression? place = some (.ok expression)) : expression.withoutPercent := by
  rcases node with ⟨value, annotations⟩
  cases value with
  | expression held =>
      cases holds
      exact free
  | text text =>
      rcases Option.map_eq_some_iff.mp holds with ⟨source, embedded, read⟩
      cases parsed : Expression.parse source place with
      | error error =>
          rw [parsed] at read
          cases read
      | ok held =>
          rw [parsed] at read
          cases read
          exact Expression.parse_withoutPercent (Text.lacks_embedded free embedded) parsed
  | _ => cases holds

end Stencil
