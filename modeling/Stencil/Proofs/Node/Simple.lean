import Stencil.Proofs.Expression.Placing
import Stencil.Proofs.Node.Refinement

namespace Stencil

/-! What stands at the places of a simple document, wherever the document is. -/

/-- An elementary expression stands at the node, the same one at every place. -/
structure Node.Holds (expression : Expression) (preferred : Bool) (node : Node) : Prop where
  holds : ∀ place, node.expression? place = some (.ok expression)
  elementary : expression.isElementary
  direct : node.redirect = none
  preferred : node.annotations.preferred = preferred

/-- A text holds an elementary expression at every place or at none. -/
theorem Value.isElementary_text {text : String} {place : List String}
    (elementary : (Value.text text).isElementary place) (place' : List String) :
    (Value.text text).isElementary place' := by
  unfold isElementary at elementary ⊢
  cases embedded : Text.embedded? text with
  | none => rwa [embedded] at elementary
  | some source =>
      simp only [embedded] at elementary ⊢
      cases parsed : Expression.parse source place with
      | error error => simp [parsed] at elementary
      | ok expression =>
          simp only [parsed] at elementary
          rw [Expression.parse_moved parsed place',
            Expression.moved_of_isElementary place' expression elementary]
          exact elementary

namespace Node

/-- A simple node that is not resolved holds an expression. -/
theorem holds_of_simple {node : Node} (simple : node.isSimple)
    (unresolved : node.isLocallyResolved = false) :
    ∃ expression, node.Holds expression node.annotations.preferred := by
  rcases simple_cases simple with plain | ⟨direct, simple⟩
  · rw [isLocallyResolved_of_isResolved (isResolved_of_isPlain plain)] at unresolved
    cases unresolved
  · rcases node with ⟨value, annotations⟩
    cases value with
    | expression expression => exact ⟨expression, fun _ => rfl, simple, direct, rfl⟩
    | text text =>
        have simple : (Value.text text).isElementary [] := simple
        unfold Value.isElementary at simple
        cases embedded : Text.embedded? text with
        | none => simp [isLocallyResolved, Value.isLocallyResolved, embedded] at unresolved
        | some source =>
            simp only [embedded] at simple
            cases parsed : Expression.parse source [] with
            | error error => simp [parsed] at simple
            | ok expression =>
                simp only [parsed] at simple
                have holds : (Node.mk (.text text) annotations).expression? [] =
                    some (.ok expression) := by
                  simp only [expression?, value_mk, embedded, Option.map_some, parsed]
                exact ⟨expression, expression?_moved holds simple, simple, direct, rfl⟩
    | _ => cases unresolved

theorem Holds.unresolved {expression : Expression} {preferred : Bool} {node : Node}
    (holds : node.Holds expression preferred) : node.isLocallyResolved = false :=
  not_resolved_of_expression (holds.holds [])

theorem Holds.listsSettled {expression : Expression} {preferred : Bool} {node : Node}
    (holds : node.Holds expression preferred) : node.listsSettled := by
  have held := holds.holds []
  rcases node with ⟨value, annotations⟩
  cases value with
  | list entries | map fields => cases held
  | _ => rfl

theorem Holds.not_resolved {expression : Expression} {preferred : Bool} {node : Node}
    (holds : node.Holds expression preferred) : node.isResolved = false :=
  unresolved_of_expression (holds.holds [])

end Node

/-! ## Elementary trees -/

mutual
theorem Value.isElementary_iff : ∀ {value : Value} {place : List String},
    value.isElementary place ↔ value.isSimple ∧ value.listsSettled
  | .list _, _ => entriesElementary_iff
  | .map _, _ => fieldsElementary_iff
  | .text _, place =>
      ⟨fun elementary => ⟨Value.isElementary_text elementary [], rfl⟩,
        fun simple => Value.isElementary_text simple.1 place⟩
  | .expression _, _ | .null, _ | .boolean _, _ | .integer _, _ | .decimal _, _
  | .lambda _ _ _, _ => ⟨fun elementary => ⟨elementary, rfl⟩, fun simple => simple.1⟩

/-- An elementary tree is a simple one in which all lists are settled, at whatever place. -/
theorem Node.isElementary_iff : ∀ {node : Node} {place : List String},
    node.isElementary place ↔ node.isSimple ∧ node.listsSettled
  | .mk value annotations, place => by
      rw [Node.isElementary, Node.isSimple, Node.listsSettled, Bool.or_eq_true, Bool.or_eq_true,
        Bool.and_eq_true, Bool.and_eq_true, Value.isElementary_iff]
      constructor
      · rintro (plain | ⟨direct, simple, settled⟩)
        · exact ⟨.inl plain, Value.listsSettled_of_isResolved (Value.isResolved_of_isPlain plain)⟩
        · exact ⟨.inr ⟨direct, simple⟩, settled⟩
      · rintro ⟨plain | ⟨direct, simple⟩, settled⟩
        · exact .inl plain
        · exact .inr ⟨direct, simple, settled⟩

theorem entriesElementary_iff : ∀ {entries : List Node} {place : List String} {index : Nat},
    entriesElementary place index entries ↔ entriesSimple entries ∧ entriesSettled entries
  | [], _, _ => ⟨fun _ => ⟨rfl, rfl⟩, fun _ => rfl⟩
  | entry :: entries, place, index => by
      rw [entriesElementary, entriesSimple, entriesSettled, Bool.and_eq_true, Bool.and_eq_true,
        Bool.and_eq_true, Bool.and_eq_true, Bool.and_eq_true, Node.isElementary_iff,
        entriesElementary_iff]
      tauto

theorem fieldsElementary_iff : ∀ {fields : List (String × Node)} {place : List String},
    fieldsElementary place fields ↔ fieldsSimple fields ∧ fieldsSettled fields
  | [], _ => ⟨fun _ => ⟨rfl, rfl⟩, fun _ => rfl⟩
  | (key, field) :: fields, place => by
      rw [fieldsElementary, fieldsSimple, fieldsSettled, Bool.and_eq_true, Bool.and_eq_true,
        Bool.and_eq_true, Bool.and_eq_true, Bool.and_eq_true, Node.isElementary_iff,
        fieldsElementary_iff]
      tauto
end

end Stencil
