import Stencil.Proofs.Evaluation.Networks
import Stencil.Proofs.Evaluation.Percent
import Stencil.Proofs.Evaluation.TemplateText

namespace Stencil

/-! Templates are filled piece by piece. What one part of a template gives does not depend on the
parts around it, and every argument is used once. Filling ends with a text, which may be of any
length, or with a fault unless it comes to a width beyond the limit: there the program stops. -/

theorem map_eq_error_iff {α β ε : Type} {result : Except ε α} {function : α → β} {error : ε} :
    result.map function = .error error ↔ result = .error error := by
  cases result with
  | error other => exact ⟨congrArg _ ∘ Except.error.inj, congrArg _ ∘ Except.error.inj⟩
  | ok value => exact iff_of_false nofun nofun

namespace Template

/-! ## Filling pieces -/

/-- What a piece takes from the arguments, and what it writes. -/
inductive Writes : Piece → List Node → String → Prop where
  | literal (character : Char) : Writes (.literal character) [] character.toString
  | directive (directive : Directive) {argument : Node} {text : String}
      (made : Directive.argumentText directive.verb argument.value = .ok text) :
      Writes (.directive directive) [argument] (directive.pad text)

inductive Fills : List Piece → List Node → String → Prop where
  | nil : Fills [] [] ""
  | cons {piece : Piece} {pieces : List Piece} {taken arguments : List Node} {front text : String}
      (writes : Writes piece taken front) (rest : Fills pieces arguments text) :
      Fills (piece :: pieces) (taken ++ arguments) (front ++ text)

/-- Directives are the pieces that take an argument. -/
def takesArgument : Piece → Bool
  | .directive _ => true
  | _ => false

section

variable {piece : Piece} {pieces others : List Piece} {taken arguments : List Node}
  {front text : String} {pause : Pause}

theorem Rendering.behind_eq_ok_iff {rest : Rendering} :
    rest.behind front = .ok (.ok text) ↔
      ∃ other, rest = .ok (.ok other) ∧ front ++ other = text := by
  rcases rest with pause | fault | other
  · exact iff_of_false nofun (by rintro ⟨_, ⟨⟩, _⟩)
  · exact iff_of_false nofun (by rintro ⟨_, ⟨⟩, _⟩)
  · constructor
    · rintro ⟨⟩
      exact ⟨other, rfl, rfl⟩
    · rintro ⟨_, ⟨⟩, rfl⟩
      rfl

theorem Rendering.behind_eq_error_iff {rest : Rendering} :
    rest.behind front = .error pause ↔ rest = .error pause :=
  map_eq_error_iff

theorem Rendering.behind_behind (first second : String) (rest : Rendering) :
    (rest.behind second).behind first = rest.behind (first ++ second) := by
  rcases rest with pause | fault | text
  · rfl
  · rfl
  · exact congrArg (fun text => Except.ok (Except.ok text)) (String.append_assoc ..).symm

theorem Rendering.behind_empty (rest : Rendering) : rest.behind "" = rest := by
  rcases rest with pause | fault | text
  · rfl
  · rfl
  · exact congrArg (fun text => Except.ok (Except.ok text)) String.empty_append

theorem Writes.fill_cons (writes : Writes piece taken front) (pieces : List Piece)
    (arguments : List Node) :
    fill (piece :: pieces) (taken ++ arguments) = (fill pieces arguments).behind front := by
  cases writes with
  | literal character => rw [List.nil_append, fill]
  | directive directive made => rw [List.singleton_append, fill, made]

/-- A piece can be written unless filling comes to an end with it. -/
theorem writes_or_fault (narrow : piece ≠ .overflow) (pieces : List Piece)
    (arguments : List Node) :
    (∃ taken rest front, arguments = taken ++ rest ∧ Writes piece taken front) ∨
      ∃ fault, fill (piece :: pieces) arguments = .ok (.error fault) := by
  cases piece with
  | literal character => exact .inl ⟨[], arguments, _, rfl, .literal character⟩
  | directive directive =>
      cases arguments with
      | nil => exact .inr ⟨_, rfl⟩
      | cons argument arguments =>
          cases made : Directive.argumentText directive.verb argument.value with
          | error fault => exact .inr ⟨fault, by rw [fill, made]⟩
          | ok text => exact .inl ⟨[argument], arguments, _, rfl, .directive directive made⟩
  | incomplete => exact .inr ⟨_, rfl⟩
  | overflow => exact absurd rfl narrow

theorem Writes.length_eq (writes : Writes piece taken front) :
    taken.length = [piece].countP takesArgument := by
  cases writes <;> rfl

theorem Writes.ne (writes : Writes piece taken front) :
    piece ≠ .incomplete ∧ piece ≠ .overflow := by
  cases writes <;> exact ⟨nofun, nofun⟩

/-- Pieces that are filled leave all further arguments to the pieces behind them. -/
theorem Fills.fill_append (fills : Fills pieces arguments text) (others : List Piece)
    (further : List Node) :
    fill (pieces ++ others) (arguments ++ further) = (fill others further).behind text := by
  induction fills with
  | nil => exact (Rendering.behind_empty _).symm
  | cons writes _ induction =>
      rw [List.cons_append, List.append_assoc, writes.fill_cons, induction,
        Rendering.behind_behind]

theorem fill_eq_ok_iff : fill pieces arguments = .ok (.ok text) ↔ Fills pieces arguments text := by
  constructor
  · intro filled
    induction pieces generalizing arguments text with
    | nil =>
        cases arguments with
        | nil =>
            cases filled
            exact .nil
        | cons argument arguments => cases filled
    | cons piece pieces induction =>
        have narrow : piece ≠ .overflow := by
          rintro rfl
          cases filled
        rcases writes_or_fault narrow pieces arguments with
          ⟨taken, rest, front, rfl, writes⟩ | ⟨fault, failed⟩
        · rw [writes.fill_cons] at filled
          rcases Rendering.behind_eq_ok_iff.mp filled with ⟨other, others, rfl⟩
          exact .cons writes (induction others)
        · cases failed.symm.trans filled
  · intro fills
    have whole := fills.fill_append [] []
    rw [List.append_nil, List.append_nil] at whole
    rw [whole]
    exact congrArg (fun text => Except.ok (Except.ok text)) String.append_empty

/-- Where the program stops, the pieces in front that hold no such width have been filled. -/
theorem exists_fills_of_pause (stopped : fill (pieces ++ others) arguments = .error pause)
    (narrow : .overflow ∉ pieces) :
    ∃ used unused text, arguments = used ++ unused ∧ Fills pieces used text ∧
      fill others unused = .error pause := by
  induction pieces generalizing arguments with
  | nil => exact ⟨[], arguments, "", rfl, .nil, stopped⟩
  | cons piece pieces induction =>
      rw [List.mem_cons, not_or] at narrow
      rw [List.cons_append] at stopped
      rcases writes_or_fault (Ne.symm narrow.1) (pieces ++ others) arguments with
        ⟨taken, rest, front, rfl, writes⟩ | ⟨fault, failed⟩
      · rw [writes.fill_cons, Rendering.behind_eq_error_iff] at stopped
        rcases induction stopped narrow.2 with ⟨used, unused, text, rfl, fills, stopped⟩
        exact ⟨taken ++ used, unused, _, (List.append_assoc ..).symm, .cons writes fills, stopped⟩
      · cases failed.symm.trans stopped

theorem Fills.length_eq (fills : Fills pieces arguments text) :
    arguments.length = pieces.countP takesArgument := by
  induction fills with
  | nil => rfl
  | cons writes _ induction =>
      rw [List.length_append, writes.length_eq, induction, ← List.countP_append]
      rfl

theorem Fills.forall_mem (fills : Fills pieces arguments text) :
    ∀ piece ∈ pieces, piece ≠ .incomplete ∧ piece ≠ .overflow := by
  induction fills with
  | nil => exact nofun
  | cons writes _ induction => exact List.forall_mem_cons.mpr ⟨writes.ne, induction⟩

end

/-! ## Whole templates -/

variable {template text : String} {parts : List Part} {arguments : List Node} {pause : Pause}

theorem Part.takesArgument_piece (part : Part) :
    Template.takesArgument part.piece = part.takesArgument := by
  cases part with
  | plain character other => rfl
  | directive spelling =>
      unfold Part.piece Part.takesArgument
      by_cases percent : spelling.verb = '%' <;> simp [percent, Template.takesArgument]

/-- A template that is rendered consists of whole parts, in whichever way it is taken apart. -/
theorem fits_of_render (rendered : render template arguments = .ok (.ok text))
    (written : template.toList = texts parts) : ∀ part ∈ parts, part.Fits := by
  by_contra wide
  have fills := fill_eq_ok_iff.mp rendered
  rw [written] at fills
  exact (fills.forall_mem _ (overflow_mem_pieces wide)).2 rfl

theorem exists_parts_of_render (rendered : render template arguments = .ok (.ok text)) :
    ∃ parts, template.toList = texts parts := by
  rcases exists_parts template.toList with ⟨parts, ending, written, fit, ends⟩
  have fills := fill_eq_ok_iff.mp rendered
  rw [written, pieces_texts fit] at fills
  cases ends with
  | done =>
      rw [List.append_nil] at written
      exact ⟨parts, written⟩
  | incomplete opening fits =>
      rw [pieces_opening opening fits] at fills
      exact absurd rfl (fills.forall_mem _ (List.mem_append_right _ List.mem_cons_self)).1
  | wide opening wide rest =>
      rcases pieces_wide opening rest wide with ⟨others, found⟩
      rw [found] at fills
      exact absurd rfl (fills.forall_mem _ (List.mem_append_right _ List.mem_cons_self)).2

theorem fills_of_render (rendered : render template arguments = .ok (.ok text))
    (written : template.toList = texts parts) : Fills (parts.map Part.piece) arguments text := by
  have fills := fill_eq_ok_iff.mp rendered
  rwa [written, pieces_texts_nil (fits_of_render rendered written)] at fills

/-- What stands behind a template that is rendered gets the arguments that are left. -/
theorem render_append {front : String} (rendered : render front arguments = .ok (.ok text))
    (template : String) (further : List Node) :
    render (front ++ template) (arguments ++ further) = (render template further).behind text := by
  rcases exists_parts_of_render rendered with ⟨parts, written⟩
  rw [render, String.toList_append, written, pieces_texts (fits_of_render rendered written),
    (fills_of_render rendered written).fill_append, render]

theorem length_of_render (rendered : render template arguments = .ok (.ok text))
    (written : template.toList = texts parts) :
    arguments.length = parts.countP Part.takesArgument := by
  rw [(fills_of_render rendered written).length_eq, List.countP_map]
  exact List.countP_congr fun part _ => iff_of_eq (congrArg (· = true) part.takesArgument_piece)

/-- Templates with their arguments one behind the other give the texts one behind the other. A
template that gives a text takes one argument for every directive but those for a percent sign. A
template without a percent sign is its own text. -/
theorem render_compositional :
    (∀ first second arguments others text other, render first arguments = .ok (.ok text) →
      render second others = .ok (.ok other) →
        render (first ++ second) (arguments ++ others) = .ok (.ok (text ++ other))) ∧
    (∀ template arguments text, render template arguments = .ok (.ok text) →
      (∃ parts, template.toList = texts parts) ∧
        ∀ parts, template.toList = texts parts →
          arguments.length = parts.countP Part.takesArgument) ∧
    ∀ template, '%' ∉ template.toList → render template [] = .ok (.ok template) := by
  refine ⟨fun first second arguments others text other rendered rendered' => ?_,
    fun template arguments text rendered => ?_, fun template free => ?_⟩
  · rw [render_append rendered, rendered']
    rfl
  · exact ⟨exists_parts_of_render rendered, fun parts => length_of_render rendered⟩
  · rw [render_of_lacksPercent (Text.lacks_iff.mpr free), if_pos rfl]

theorem render_compositional_percent :
    let one := Node.ofSource none (.integer 1)
    let word := Node.ofSource none (.text "a")
    render "%d" [one] = .ok (.ok "1") ∧ render "%%%2s" [word] = .ok (.ok "% a") ∧
      render "%d%%%2s" [one, word] = .ok (.ok "1% a") ∧
        ∃ parts, "%d%%%2s".toList = texts parts ∧ parts.countP Part.takesArgument = 2 := by
  intro one word
  have number : render "%d" [one] = .ok (.ok "1") := by cbv
  have text : render "%%%2s" [word] = .ok (.ok "% a") := by cbv
  have both := render_compositional.1 _ _ _ _ _ _ number text
  rcases render_compositional.2.1 _ _ _ both with ⟨⟨parts, written⟩, count⟩
  exact ⟨number, text, both, parts, written, (count parts written).symm⟩

/-! ## Widths beyond the limit -/

/-- Behind a front that is filled stands a directive with a width beyond the limit. What the
directive is for, and whether there is an argument for it, does not matter. -/
inductive Breaks : String → List Node → Prop where
  | wide {front text : String} {used : List Node} (opening : Opening)
      (rendered : render front used = .ok (.ok text)) (wide : widthLimit < opening.width)
      (rest : String) (unused : List Node) :
      Breaks (front ++ (.ofList opening.text ++ rest)) (used ++ unused)

theorem render_eq_error_iff :
    render template arguments = .error pause ↔ pause = .overflow ∧ Breaks template arguments := by
  constructor
  · intro stopped
    rcases exists_parts template.toList with ⟨parts, ending, written, fit, ends⟩
    rw [render, written, pieces_texts fit] at stopped
    have narrow : .overflow ∉ parts.map Part.piece := by
      intro member
      rcases List.mem_map.mp member with ⟨part, -, same⟩
      exact part.piece_ne.2 same
    rcases exists_fills_of_pause stopped narrow with ⟨used, unused, text, rfl, fills, stopped⟩
    cases ends with
    | done =>
        rw [pieces_nil] at stopped
        cases unused <;> cases stopped
    | incomplete opening fits =>
        rw [pieces_opening opening fits] at stopped
        cases stopped
    | wide opening wide rest =>
        rcases pieces_wide opening rest wide with ⟨others, found⟩
        rw [found] at stopped
        cases stopped
        have rendered : render (.ofList (texts parts)) used = .ok (.ok text) := by
          rw [render, String.toList_ofList, pieces_texts_nil fit]
          exact fill_eq_ok_iff.mpr fills
        have breaks := Breaks.wide opening rendered wide (.ofList rest) unused
        rw [← String.ofList_append, ← String.ofList_append, ← written, String.ofList_toList]
          at breaks
        exact ⟨rfl, breaks⟩
  · rintro ⟨rfl, opening, rendered, wide, rest, unused⟩
    rw [render_append rendered, Rendering.behind_eq_error_iff, render, String.toList_append,
      String.toList_ofList]
    rcases pieces_wide opening rest.toList wide with ⟨others, found⟩
    rw [found]
    rfl

/-- Nothing has to stand around the width. -/
theorem breaks_opening (opening : Opening) (wide : widthLimit < opening.width)
    (arguments : List Node) : Breaks (.ofList opening.text) arguments := by
  have rendered : render "" [] = .ok (.ok "") := by
    rw [render_of_lacksPercent rfl, if_pos rfl]
  have breaks := Breaks.wide opening rendered wide "" arguments
  rwa [String.empty_append, String.append_empty, List.nil_append] at breaks

theorem breaks_nines (arguments : List Node) : Breaks "%99999999999999999999" arguments := by
  have digit : ∀ character ∈ List.replicate 20 '9', character.isDigit = true :=
    List.forall_mem_replicate.mpr (.inr rfl)
  have wide : widthLimit < Number.decimalValue (List.replicate 20 '9') := by decide
  exact breaks_opening ⟨[], List.replicate 20 '9', nofun, digit, by decide⟩ wide arguments

end Template

/-! ## Functions on templates -/

namespace TextFunction

variable {nodes arguments : List Node} {function : Builtin} {template : Node} {text : String}
  {pause : Pause}

/-- The first argument is a template that stops the program when the others are filled in. -/
inductive Breaks : List Node → Prop where
  | template {template : Node} {text : String} {arguments : List Node}
      (written : template.value = .text text) (breaks : Template.Breaks text arguments) :
      Breaks (template :: arguments)

theorem breaks_iff (read : Arguments.text function 0 template = .ok text) :
    Breaks (template :: arguments) ↔ Template.Breaks text arguments := by
  unfold Arguments.text at read
  split at read
  · rename_i held
    cases read
    constructor
    · rintro ⟨written, breaks⟩
      cases held.symm.trans written
      exact breaks
    · exact .template held
  · cases read

theorem not_breaks {issue : Issue} (refused : Arguments.text function 0 template = .error issue) :
    ¬ Breaks (template :: arguments) := by
  rintro ⟨written, -⟩
  rw [Arguments.text, written] at refused
  cases refused

theorem format_of_text (read : Arguments.text .format 0 template = .ok text) :
    format (template :: arguments) =
      (Template.render text arguments).map fun result =>
        (result.map Value.text).mapError Issue.format := by
  rw [format, read]
  rcases rendered : Template.render text arguments with pause | fault | text <;>
    simp only [rendered] <;> rfl

theorem error_of_text (read : Arguments.text .error 0 template = .ok text) :
    error (template :: arguments) =
      (Template.render text arguments).map fun result =>
        match result with
        | .ok text => .raised text
        | .error fault => .errorTemplate fault := by
  rw [error, read]
  rcases rendered : Template.render text arguments with pause | fault | text <;>
    simp only [rendered] <;> rfl

/-- A function that renders its first argument stops where rendering stops. -/
theorem eq_error_iff {α : Type} {made : List Node → Except Pause α} (empty : made [] ≠ .error pause)
    (refused : ∀ template arguments issue, Arguments.text function 0 template = .error issue →
      made (template :: arguments) ≠ .error pause)
    (rendered : ∀ template arguments text, Arguments.text function 0 template = .ok text →
      ∃ finish, made (template :: arguments) = (Template.render text arguments).map finish) :
    made nodes = .error pause ↔ pause = .overflow ∧ Breaks nodes := by
  cases nodes with
  | nil => exact iff_of_false empty (by rintro ⟨-, ⟨⟩⟩)
  | cons template arguments =>
      cases read : Arguments.text function 0 template with
      | error issue =>
          exact iff_of_false (refused _ _ _ read) fun stopped => not_breaks read stopped.2
      | ok text =>
          rcases rendered _ arguments _ read with ⟨finish, whole⟩
          rw [whole, map_eq_error_iff, Template.render_eq_error_iff, breaks_iff read]

theorem format_eq_error_iff : format nodes = .error pause ↔ pause = .overflow ∧ Breaks nodes := by
  refine eq_error_iff (by rintro ⟨⟩) (fun template arguments issue refused => ?_)
    fun template arguments text read => ⟨_, format_of_text read⟩
  rw [format, refused]
  rintro ⟨⟩

theorem error_eq_error_iff : error nodes = .error pause ↔ pause = .overflow ∧ Breaks nodes := by
  refine eq_error_iff (by rintro ⟨⟩) (fun template arguments issue refused => ?_)
    fun template arguments text read => ⟨_, error_of_text read⟩
  rw [error, refused]
  rintro ⟨⟩

/-- What `format` gives is a text. -/
theorem exists_text_of_format {value : Value} (computed : format nodes = .ok (.ok value)) :
    ∃ text, value = .text text := by
  cases nodes with
  | nil => cases computed
  | cons template arguments =>
      cases read : Arguments.text .format 0 template with
      | error issue =>
          rw [format, read] at computed
          cases computed
      | ok text =>
          rw [format_of_text read] at computed
          rcases rendered : Template.render text arguments with pause | fault | text
          all_goals
            rw [rendered] at computed
            cases computed
          exact ⟨text, rfl⟩

end TextFunction

namespace Expression

variable {evaluator : Evaluator} {binding : Binding} {arguments : List Expression}
  {nodes : List Node} {report : Report}

theorem evaluateWith_format
    (given : operands evaluator binding {} arguments = .ok (.ok (nodes, report))) :
    evaluateWith evaluator binding (.call (.reference ["format"]) arguments) =
      (TextFunction.format nodes).map fun result =>
        called binding.source (report.join {}) (orIssue result) := by
  have named : Builtin.ofName? "format" = some .format := rfl
  rw [evaluateWith_apply named given, Builtin.apply]
  cases TextFunction.format nodes with
  | error pause => rfl
  | ok result => exact congrArg Except.ok (ofResult_after binding.source report (orIssue result))

theorem evaluateWith_error
    (given : operands evaluator binding {} arguments = .ok (.ok (nodes, report))) :
    evaluateWith evaluator binding (.call (.reference ["error"]) arguments) =
      (TextFunction.error nodes).map fun issue =>
        .failed { report.join {} with issue := some issue } := by
  have named : Builtin.ofName? "error" = some .error := rfl
  rw [evaluateWith_apply named given, Builtin.apply]
  cases TextFunction.error nodes with
  | error pause => rfl
  | ok issue => exact congrArg Except.ok (ofResult_after binding.source report (refuse issue))

end Expression

end Stencil
