import Stencil.Proofs.Evaluation.Networks
import Stencil.Proofs.Text.Separated

namespace Stencil

/-! Calls of `split` and `join`. Joining the parts of a text gives the text again. Splitting at a
character that stands in none of the texts that were joined gives these texts again. -/

/-! ## The functions on their arguments -/

namespace TextFunction

variable {separator text : Node} {mark whole : String}

theorem split_texts (source : Option String) (separated : separator.value = .text mark)
    (held : text.value = .text whole) :
    split source [separator, text] =
      .ok (.list ((Text.split mark whole).map fun part => .ofSource source (.text part))) := by
  simp only [split, Arguments.text, separated, held, bind, Except.bind, pure, Except.pure]

theorem mapM_scalarText {entries : List Node} {texts : List String}
    (written : entries.map Node.value = texts.map Value.text) :
    entries.mapM scalarText = .ok texts := by
  induction entries generalizing texts with
  | nil =>
      rw [List.map_eq_nil_iff.mp written.symm]
      rfl
  | cons entry entries induction =>
      rcases List.map_eq_cons_iff.mp written.symm with ⟨first, others, rfl, here, rest⟩
      have text : scalarText entry = .ok first := by
        rw [scalarText, ← here]
        rfl
      rw [List.mapM_cons, text, induction rest.symm]
      rfl

/-- A list among the arguments is joined by its entries. -/
theorem join_texts {list : Node} {entries : List Node} {texts : List String}
    (separated : separator.value = .text mark) (held : list.value = .list entries)
    (written : entries.map Node.value = texts.map Value.text) :
    join [separator, list] = .ok (.text (mark.intercalate texts)) := by
  have flat : Arguments.flatten [list] = entries := by
    simp [Arguments.flatten, held]
  simp only [join, Arguments.text, separated, flat, mapM_scalarText written, bind, Except.bind, pure,
    Except.pure]

end TextFunction

/-! ## Calls -/

namespace Expression

variable {evaluator : Evaluator} {binding : Binding}

/-- The expression has this value. -/
def Gives (evaluator : Evaluator) (binding : Binding) (expression : Expression) (value : Value) :
    Prop :=
  ∃ node report, evaluateWith evaluator binding expression = .ok (.value node report) ∧
    node.value = value

/-- A function of two arguments on the nodes of its arguments. -/
theorem Gives.called (function : Builtin) {first second : Expression} {left right value : Value}
    (given : Gives evaluator binding first left) (given' : Gives evaluator binding second right)
    (applies : ∀ node other, node.value = left → other.value = right →
      function.apply evaluator binding [node, other] =
        .ok (.ofResult binding.source (.ok value))) :
    Gives evaluator binding (.call (.reference [function.name]) [first, second]) value := by
  rcases given with ⟨node, report, here, held⟩
  rcases given' with ⟨other, report', there, held'⟩
  have named : Builtin.ofName? function.name = some function := by cases function <;> rfl
  have both : operands evaluator binding {} [first, second] =
      .ok (.ok ([node, other], (Report.join {} report).join report')) := by
    simp only [operands, here, there, bind, Except.bind, pure, Except.pure, Except.map]
  exact ⟨_, _, evaluateWith_called named both (applies node other held held'), rfl⟩

def splitCall (separator text : Expression) : Expression :=
  .call (.reference ["split"]) [separator, text]

def joinCall (separator list : Expression) : Expression :=
  .call (.reference ["join"]) [separator, list]

variable {separator text list : Expression} {mark whole : String}

theorem Gives.split (separated : Gives evaluator binding separator (.text mark))
    (given : Gives evaluator binding text (.text whole)) :
    Gives evaluator binding (splitCall separator text)
      (.list ((Text.split mark whole).map fun part => .ofSource binding.source (.text part))) := by
  refine Gives.called .split separated given fun node other held held' => ?_
  rw [Builtin.apply, TextFunction.split_texts binding.source held held']
  rfl

theorem Gives.join {entries : List Node} {texts : List String}
    (separated : Gives evaluator binding separator (.text mark))
    (given : Gives evaluator binding list (.list entries))
    (written : entries.map Node.value = texts.map Value.text) :
    Gives evaluator binding (joinCall separator list) (.text (mark.intercalate texts)) := by
  refine Gives.called .join separated given fun node other held held' => ?_
  rw [Builtin.apply, TextFunction.join_texts held held' written]
  rfl

/-- Joining undoes splitting, at whatever separator. Splitting at a character undoes the joining of
texts without it, of which there is one at least. -/
theorem split_join (evaluator : Evaluator) (binding : Binding) :
    (∀ (separator text : Expression) (mark whole : String),
      Gives evaluator binding separator (.text mark) →
      Gives evaluator binding text (.text whole) →
        Gives evaluator binding (joinCall separator (splitCall separator text)) (.text whole)) ∧
    ∀ (separator list : Expression) (mark : Char) (entries : List Node) (texts : List String),
      Gives evaluator binding separator (.text mark.toString) →
      Gives evaluator binding list (.list entries) →
      entries.map Node.value = texts.map Value.text → texts ≠ [] →
      (∀ text ∈ texts, mark ∉ text.toList) →
        Gives evaluator binding (splitCall separator (joinCall separator list))
          (.list (texts.map fun text => .ofSource binding.source (.text text))) := by
  constructor
  · intro separator text mark whole separated given
    have written (parts : List String) :
        (parts.map fun part => Node.ofSource binding.source (.text part)).map Node.value =
          parts.map Value.text :=
      List.map_map
    have joined := separated.join (separated.split given) (written _)
    rwa [Text.intercalate_split] at joined
  · intro separator list mark entries texts separated given written filled free
    have parts := separated.split (separated.join given written)
    rwa [Text.split_intercalate filled free] at parts

/-- A separator that overlaps itself, at both ends of the text, and a mark around an empty text. -/
theorem split_join_overlapping :
    let literal text := Gives (evaluate 0) {} (.text text) (.text text)
    literal "aa" ∧ literal "aaabaa" ∧
      Gives (evaluate 0) {} (joinCall (.text "aa") (splitCall (.text "aa") (.text "aaabaa")))
        (.text "aaabaa") ∧
      literal "," ∧ Gives (evaluate 0) {} (.list [.text "", .text "b"])
        (.list [.ofSource none (.text ""), .ofSource none (.text "b")]) ∧
      (∀ text ∈ ["", "b"], ',' ∉ text.toList) ∧
      Gives (evaluate 0) {} (splitCall (.text ",") (joinCall (.text ",")
          (.list [.text "", .text "b"])))
        (.list [.ofSource none (.text ""), .ofSource none (.text "b")]) := by
  have literal (text : String) : Gives (evaluate 0) {} (.text text) (.text text) :=
    ⟨_, _, rfl, rfl⟩
  have list : Gives (evaluate 0) {} (.list [.text "", .text "b"])
      (.list [.ofSource none (.text ""), .ofSource none (.text "b")]) :=
    ⟨_, _, rfl, rfl⟩
  have free : ∀ text ∈ ["", "b"], ',' ∉ text.toList := by simp
  have laws := split_join (evaluate 0) {}
  exact ⟨literal _, literal _, laws.1 _ _ _ _ (literal _) (literal _), literal _, list, free,
    laws.2 _ _ ',' _ ["", "b"] (literal _) list rfl (by simp) free⟩

end Expression

end Stencil
