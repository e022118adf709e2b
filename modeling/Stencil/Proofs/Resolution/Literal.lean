import Stencil.Proofs.Resolution.Around
import Stencil.Proofs.Resolution.Persistence

namespace Stencil

/-! Documents without expressions, as they are read. No pass changes them, whatever the stubs
hold, and literal markers are keys like all others. They settle at once, unless there is a
decimal that is no number: it does not equal itself, and the passes never end. -/

/-- A tree without duplicate keys equals itself exactly if every decimal is a number. -/
theorem Node.same_self_iff {node : Node} (distinct : node.keysDistinct) :
    (node == node) = node.withoutNaN := by
  rw [Bool.eq_iff_iff]
  constructor
  · exact fun same => Node.withoutNaN_of_same same
  · exact node.same_self distinct

namespace Resolution

variable {answers : Answers} {stubs : List Node} {template : Node} {limit passes : Nat}

/-- A document that does not equal itself and that no pass changes never settles. -/
theorem settle_of_changing (pass : Pass.run answers stubs template = .ok template)
    (changes : (template == template) = false) :
    settle answers stubs limit passes template = .ok none := by
  induction limit generalizing passes with
  | zero => rfl
  | succ limit induction =>
      rw [settle, pass]
      simp only [bind, Except.bind, changes, Bool.false_eq_true, if_false]
      exact induction

theorem partly_of_changing (pass : Pass.run answers stubs template = .ok template)
    (changes : (template == template) = false) :
    partly answers limit stubs template = .ok (.error (.passLimit limit)) := by
  rw [partly, settle_of_changing pass changes]
  rfl

theorem treeAfter_of_isResolved (resolved : template.isResolved) :
    treeAfter answers stubs passes template = .ok template := by
  induction passes with
  | zero => rfl
  | succ passes induction =>
      exact treeAfter_succ induction
        (Pass.visit_of_isResolved template Override.expressions_ne_all resolved)

/-- A document without expressions is the same after every pass. With at least one pass to make
it is the result, after exactly one, if all of its decimals are numbers; if not, no limit of
passes is enough. -/
theorem partly_literal (answers : Answers) (stubs : List Node) (source : Option String)
    (tree : Tree) (literal : (Node.ofTree source tree).isResolved) :
    let template := Node.ofTree source tree
    (∀ passes, treeAfter answers stubs passes template = .ok template) ∧
    (∀ limit, 0 < limit → partly answers limit stubs template =
      if template.withoutNaN then .ok (.ok ⟨template, [], 1⟩)
      else .ok (.error (.passLimit limit))) := by
  intro template
  have distinct : template.keysDistinct := Node.keysDistinct_ofTree source tree
  refine ⟨fun passes => treeAfter_of_isResolved literal, fun limit positive => ?_⟩
  by_cases numbers : template.withoutNaN
  · rw [if_pos numbers]
    have complete := Node.unresolved_of_isResolved literal
    exact partly_of_isResolved literal complete (template.same_self distinct numbers) positive
  · rw [if_neg numbers]
    have pass : Pass.run answers stubs template = .ok template :=
      Pass.visit_of_isResolved template Override.expressions_ne_all literal
    have changes : (template == template) = false := by
      rw [Node.same_self_iff distinct]
      exact Bool.eq_false_iff.mpr numbers
    exact partly_of_changing pass changes

/-- A mapping with the infinities, the two zeros and a literal marker. -/
theorem partly_literal_marker :
    let decimals : List Number.Decimal :=
      [.infinity false, .infinity true, .zero false, .zero true]
    let tree : Tree := .mapping [(.text markerKey, .sequence (decimals.map .decimal)),
      (.text "a", .mapping [(.text markerKey, .integer 1)])]
    let template := Node.ofTree none tree
    let stub := Node.ofTree none (.mapping [(.text "a", .integer 2)])
    template.isResolved ∧ partly .none 1 [stub] template = .ok (.ok ⟨template, [], 1⟩) := by
  intro decimals tree template stub
  have literal : template.isResolved := by decide
  have numbers : template.withoutNaN := by decide
  have result := (partly_literal .none [stub] none tree literal).2 1 Nat.one_pos
  rw [if_pos numbers] at result
  exact ⟨literal, result⟩

/-- With a decimal that is no number nothing is answered. -/
theorem partly_literal_nan :
    ¬ ∀ (answers : Answers) (stubs : List Node) (source : Option String) (tree : Tree)
        (limit : Nat), (Node.ofTree source tree).isResolved → 0 < limit →
      ∃ resolution, partly answers limit stubs (Node.ofTree source tree) = .ok (.ok resolution) ∧
        resolution.passes = 1 ∧ resolution.unresolved = [] ∧
        resolution.document.tree = (Node.ofTree source tree).tree := by
  intro claim
  let tree : Tree := .mapping [(.text "a", .decimal .nan)]
  let template := Node.ofTree none tree
  have literal : template.isResolved := by decide
  rcases claim .none [] none tree defaultLimit literal (by decide) with ⟨resolution, result, _⟩
  have pass : Pass.run .none [] template = .ok template := rfl
  have changes : (template == template) = false := by decide
  cases (partly_of_changing pass changes).symm.trans result

end Resolution

end Stencil
