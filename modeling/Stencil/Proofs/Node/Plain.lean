import Stencil.Proofs.Node.Refinement
import Stencil.Proofs.Text.Characters
import Stencil.Resolution.Marker

namespace Stencil

/-! Plain data: trees without expressions and markers, in which no text has an opening
parenthesis. Texts that are put together from such texts embed nothing either. -/

namespace Text

/-- No opening parenthesis is in the text. -/
def isUnopened (text : String) : Bool := !text.toList.contains '('

theorem isUnopened_eq_lacks : isUnopened = lacks '(' := rfl

theorem isUnopened_append {left right : String} (first : isUnopened left)
    (second : isUnopened right) : isUnopened (left ++ right) := by
  rw [isUnopened_eq_lacks] at first second ⊢
  rw [lacks_append, Bool.and_eq_true]
  exact ⟨first, second⟩

theorem embedded?_of_isUnopened {text : String} (unopened : isUnopened text) :
    embedded? text = none := by
  rw [isUnopened_eq_lacks, lacks_iff] at unopened
  unfold embedded?
  split
  · rename_i rest opened
    rw [opened] at unopened
    exact absurd List.mem_cons_self unopened
  · rfl

end Text

theorem Address.print_unopened (address : Address) : Text.isUnopened address.print :=
  NoDigit.print (.of_not_mem (by decide) (by decide)) (by decide) (by decide) address

/-! Expressions stand where nothing is resolved. -/

/-- A node is locally resolved exactly when no expression stands at it. -/
theorem Node.expression?_eq_none_iff {node : Node} {place : List String} :
    node.expression? place = none ↔ node.isLocallyResolved := by
  rcases node with ⟨value, annotations⟩
  cases value <;>
    simp [Node.expression?, Node.isLocallyResolved, Value.isLocallyResolved]

theorem Node.not_resolved_of_expression {node : Node} {place : List String}
    {found : Except Issue Expression} (holds : node.expression? place = some found) :
    node.isLocallyResolved = false := by
  cases resolved : node.isLocallyResolved with
  | false => rfl
  | true =>
      rw [Node.expression?_eq_none_iff.mpr resolved] at holds
      cases holds

theorem Node.unresolved_of_expression {node : Node} {place : List String}
    {found : Except Issue Expression} (holds : node.expression? place = some found) :
    node.isResolved = false := by
  rw [← Bool.not_eq_true]
  intro resolved
  have pending := Node.not_resolved_of_expression holds
  rw [Node.isLocallyResolved_of_isResolved resolved] at pending
  cases pending

/-! ## Plain trees -/

mutual
def Value.isPlain : Value → Bool
  | .text text => Text.isUnopened text
  | .list entries => entriesPlain entries
  | .map fields => fieldsPlain fields
  | .expression _ => false
  | _ => true

def Node.isPlain : Node → Bool
  | .mk value _ => value.isPlain

def entriesPlain : List Node → Bool
  | [] => true
  | entry :: entries => entry.isPlain && entriesPlain entries

def fieldsPlain : List (String × Node) → Bool
  | [] => true
  | (key, field) :: fields => key != markerKey && field.isPlain && fieldsPlain fields
end

mutual
theorem Value.isResolved_of_isPlain : ∀ {value : Value}, value.isPlain → value.isResolved
  | .list _, plain => entriesResolved_of_plain plain
  | .map _, plain => fieldsResolved_of_plain plain
  | .text text, plain => by
      have none : Text.embedded? text = none := Text.embedded?_of_isUnopened plain
      simp [Value.isResolved, Value.isLocallyResolved, none]
  | .null, _ | .boolean _, _ | .integer _, _ | .decimal _, _ | .lambda _ _ _, _ => rfl

theorem Node.isResolved_of_isPlain : ∀ {node : Node}, node.isPlain → node.isResolved
  | .mk _ _, plain => Value.isResolved_of_isPlain plain

theorem entriesResolved_of_plain : ∀ {entries : List Node}, entriesPlain entries →
    entriesResolved entries
  | [], _ => rfl
  | _ :: _, plain => by
      rw [entriesPlain, Bool.and_eq_true] at plain
      rw [entriesResolved, Bool.and_eq_true]
      exact ⟨Node.isResolved_of_isPlain plain.1, entriesResolved_of_plain plain.2⟩

theorem fieldsResolved_of_plain : ∀ {fields : List (String × Node)}, fieldsPlain fields →
    fieldsResolved fields
  | [], _ => rfl
  | (_, _) :: _, plain => by
      rw [fieldsPlain, Bool.and_eq_true, Bool.and_eq_true] at plain
      rw [fieldsResolved, Bool.and_eq_true]
      exact ⟨Node.isResolved_of_isPlain plain.1.2, fieldsResolved_of_plain plain.2⟩
end

end Stencil
