import Stencil.Proofs.Expression.Stopping

namespace Stencil

open Lexemes Grammar

/-! Every grammar function ends on every list of lexemes. It has an answer that does not depend on
the depth, and calls nested deeper than a multiple of the number of lexemes never come up. -/

namespace Grammar

/-- What the grammar function of a part reads. -/
abbrev Part.Result : Part → Type
  | .separated _ | .entries _ => List Expression
  | .path | .steps | .parameters => List String
  | .key _ | .index => String
  | _ => Expression

/-- The grammar function of a part, at this depth. -/
def Part.run (place : List String) (depth : Nat) (lexemes : List Lexeme) :
    (part : Part) → Except Stop (Reading part.Result)
  | .expression => parseExpression place depth lexemes
  | .conditional => parseConditional place depth lexemes
  | .chain level => parseChain place depth level lexemes
  | .chainRest level left => parseChainRest place depth level left lexemes
  | .operand level => parseOperand place depth level lexemes
  | .unary => parseUnary place depth lexemes
  | .calls function => parseCalls place depth function lexemes
  | .separated enclosure => parseSeparated place depth enclosure.close enclosure.rule lexemes
  | .entries enclosure => parseEntries place depth enclosure.close enclosure.rule lexemes
  | .primary => parsePrimary place depth lexemes
  | .lambda => parseLambda place depth lexemes
  | .mapping => parseMapping place depth lexemes
  | .mapped => parseMapped place depth lexemes
  | .path => parsePath depth lexemes
  | .steps => parseSteps depth lexemes
  | .key afterDot => parseKey afterDot lexemes
  | .index => parseIndex lexemes
  | .parameters => parseParameters depth lexemes

/-- The lexemes that reading a part takes at least. What follows the first operand, the function
or the first key may be nothing. -/
def Part.least : Part → Nat
  | .chainRest _ _ | .calls _ | .steps => 0
  | _ => 1

/-- The second part is the loop of the first one in its next turn. -/
def Part.Repeats : Part → Part → Prop
  | .chainRest level _, .chainRest next _ => level = next
  | .entries enclosure, .entries next => enclosure = next
  | .calls _, .calls _ | .steps, .steps | .parameters, .parameters => True
  | _, _ => False

end Grammar

variable {place : List String} {depth : Nat} {lexemes rest : List Lexeme}

/-! ## Progress -/

theorem Grammar.Part.reads_of_run {part : Part} {result : part.Result}
    (ends : part.run place depth lexemes = .ok (result, rest)) : part.Reads place lexemes rest := by
  cases part with
  | expression => exact ⟨_, derives place depth (.expression result) ends⟩
  | conditional => exact ⟨_, derives place depth (.conditional result) ends⟩
  | chain level => exact ⟨_, derives place depth (.chain level result) ends⟩
  | chainRest level left => exact ⟨_, derives place depth (.chainRest level left result) ends⟩
  | operand level => exact ⟨_, derives place depth (.operand level result) ends⟩
  | unary => exact ⟨_, derives place depth (.unary result) ends⟩
  | calls function => exact ⟨_, derives place depth (.calls function result) ends⟩
  | separated enclosure => exact ⟨_, derives place depth (.separated enclosure result) ends⟩
  | entries enclosure => exact ⟨_, derives place depth (.entries enclosure result) ends⟩
  | primary => exact ⟨_, derives place depth (.primary result) ends⟩
  | lambda => exact ⟨_, derives place depth (.lambda result) ends⟩
  | mapping => exact ⟨_, derives place depth (.mapping result) ends⟩
  | mapped => exact ⟨_, derives place depth (.mapped result) ends⟩
  | path => exact ⟨_, path_of_parse ends⟩
  | steps => exact ⟨_, steps_of_parse ends⟩
  | key afterDot => exact ⟨_, ends⟩
  | index => exact ⟨_, ends⟩
  | parameters => exact ⟨_, parameters_of_parse ends⟩

theorem Grammar.Part.Reads.through {part : Part} (reads : part.Reads place lexemes rest) :
    Through lexemes part.least rest := by
  cases part with
  | path => exact reads.elim fun _ reads => reads.through
  | steps => exact reads.elim fun _ reads => reads.through
  | key afterDot => exact reads.elim fun _ ends => parseKey_through ends
  | index => exact reads.elim fun _ ends => parseIndex_through ends
  | parameters => exact reads.elim fun _ reads => reads.through
  | _ => exact reads.elim fun _ reads => Grammar.Reads.through reads

/-- A turn of a loop takes lexemes, also the one for an operand without a sign of its own in front
of it. -/
theorem Grammar.Enters.repeats {part next : Part} (enters : Enters place part lexemes next rest)
    (again : part.Repeats next) : Through lexemes 1 rest := by
  cases enters with
  | chainMore sign right =>
      -- Without a sign nothing is stepped over but the operand itself, which is never empty.
      exact (Level.through_sign sign).trans right.through
  | called parenthesis touches inside =>
      have sign := Through.refl.step (.of_peek parenthesis (by simp))
      exact (sign.trans inside.through).weaken (by simp [Phrase.least])
  | more first comma => exact (first.through.step (.of_peek comma (by simp))).weaken (by simp)
  | behindKey touches dot follows first =>
      have passes : Passes lexemes :=
        ⟨ne_finish_of_peek dot (by simp), fun _ => ne_finish_of_parseKey first⟩
      exact ((Through.refl.step passes).trans (parseKey_through first)).weaken (by simp)
  | behindIndex touches bracket first =>
      have sign := Through.refl.step (.of_peek bracket (by simp))
      exact (sign.trans (parseIndex_through first)).weaken (by simp)
  | name word comma =>
      have name := Through.refl.step (.of_peek word (by simp))
      exact (name.step (.of_peek comma (by simp))).weaken (by simp)
  | _ => exact again.elim

/-! ## More depth -/

/-- The second is the first, if the depth did not stop the first. -/
def Within {α : Type} (first second : Except Stop α) : Prop :=
  first ≠ .error .depth → second = first

namespace Within

variable {α β : Type}

theorem refl (first : Except Stop α) : Within first first := fun _ => rfl

theorem spent (second : Except Stop α) : Within (.error .depth) second :=
  fun other => absurd rfl other

theorem trans {first second third : Except Stop α} (left : Within first second)
    (right : Within second third) : Within first third := by
  intro ends
  have same := left ends
  rw [right (same ▸ ends), same]

theorem bind {first second : Except Stop α} {next next' : α → Except Stop β}
    (here : Within first second) (behind : ∀ value, Within (next value) (next' value)) :
    Within (first >>= next) (second >>= next') := by
  intro ends
  cases first with
  | error stop =>
      have same : second = .error stop := here fun spent => ends (by cases spent; rfl)
      rw [same]
      rfl
  | ok value =>
      have same : second = .ok value := here nofun
      rw [same]
      exact behind value ends

end Within

/-- One more call does not change what a grammar function gives, unless the depth stopped it. -/
def Grammar.Steady (place : List String) (depth : Nat) : Prop :=
  ∀ (part : Part) (lexemes : List Lexeme),
    Within (part.run place depth lexemes) (part.run place (depth + 1) lexemes)

section

variable (below : Steady place depth) (lexemes : List Lexeme)

include below

theorem steady_expression :
    Within (parseExpression place (depth + 1) lexemes)
      (parseExpression place (depth + 2) lexemes) := by
  unfold parseExpression
  dsimp only
  split
  · exact (below .conditional _).bind fun _ => .refl _
  · exact below .conditional _

theorem steady_conditional :
    Within (parseConditional place (depth + 1) lexemes)
      (parseConditional place (depth + 2) lexemes) := by
  unfold parseConditional
  refine (below (.chain .fallback) _).bind ?_
  rintro ⟨condition, lexemes⟩
  dsimp only
  split
  · exact (below .expression _).bind fun _ => (Within.refl _).bind fun _ =>
      (below .expression _).bind fun _ => .refl _
  · exact .refl _

theorem steady_chain (level : Level) :
    Within (parseChain place (depth + 1) level lexemes)
      (parseChain place (depth + 2) level lexemes) := by
  unfold parseChain
  exact (below (.operand level) _).bind fun left => below (.chainRest level left.1) _

theorem steady_chainRest (level : Level) (left : Expression) :
    Within (parseChainRest place (depth + 1) level left lexemes)
      (parseChainRest place (depth + 2) level left lexemes) := by
  unfold parseChainRest
  split
  · exact .refl _
  · rename_i operator sign
    exact (below (.operand level) _).bind fun right =>
      below (.chainRest level (.binary operator left right.1)) _

theorem steady_operand (level : Level) :
    Within (parseOperand place (depth + 1) level lexemes)
      (parseOperand place (depth + 2) level lexemes) := by
  unfold parseOperand
  split
  · rename_i tighter held
    exact below (.chain tighter) _
  · exact below .unary _

theorem steady_unary :
    Within (parseUnary place (depth + 1) lexemes) (parseUnary place (depth + 2) lexemes) := by
  unfold parseUnary
  split
  · exact (below .unary _).bind fun _ => .refl _
  · dsimp only
    split
    · exact .refl _
    · exact (below .unary _).bind fun _ => .refl _
  · exact (below .primary _).bind fun function => below (.calls function.1) _

theorem steady_calls (function : Expression) :
    Within (parseCalls place (depth + 1) function lexemes)
      (parseCalls place (depth + 2) function lexemes) := by
  unfold parseCalls
  split
  · exact (below (.separated .arguments) _).bind fun arguments =>
      below (.calls (.call function arguments.1)) _
  · exact .refl _

theorem steady_separated (enclosure : Enclosure) :
    Within (parseSeparated place (depth + 1) enclosure.close enclosure.rule lexemes)
      (parseSeparated place (depth + 2) enclosure.close enclosure.rule lexemes) := by
  unfold parseSeparated
  split
  · exact .refl _
  · exact below (.entries enclosure) _

theorem steady_entries (enclosure : Enclosure) :
    Within (parseEntries place (depth + 1) enclosure.close enclosure.rule lexemes)
      (parseEntries place (depth + 2) enclosure.close enclosure.rule lexemes) := by
  unfold parseEntries
  refine (below .expression _).bind ?_
  rintro ⟨entry, lexemes⟩
  dsimp only
  split
  · exact .refl _
  · exact (Within.refl _).bind fun _ => (below (.entries enclosure) _).bind fun _ => .refl _

theorem steady_merge :
    Within (parseMerge place depth lexemes) (parseMerge place (depth + 1) lexemes) := by
  unfold parseMerge
  dsimp only
  split
  · exact (below .path _).bind fun _ => .refl _
  · exact .refl _

theorem steady_primary :
    Within (parsePrimary place (depth + 1) lexemes) (parsePrimary place (depth + 2) lexemes) := by
  unfold parsePrimary
  dsimp only
  split
  · exact .refl _
  · exact .refl _
  · exact (below .expression _).bind fun _ => (Within.refl _).bind fun _ => .refl _
  · exact (below (.separated .entries) _).bind fun _ => .refl _
  · split
    · exact (below .path _).bind fun _ => .refl _
    · exact .refl _
  · exact .refl _
  · exact .refl _
  · exact .refl _
  · exact steady_merge below _
  · exact .refl _
  · split
    · exact below .lambda _
    · split
      · exact below .mapping _
      · exact (below .path _).bind fun _ => .refl _
  · exact .refl _

theorem steady_lambda :
    Within (parseLambda place (depth + 1) lexemes) (parseLambda place (depth + 2) lexemes) := by
  unfold parseLambda
  dsimp only
  split
  · exact (Within.refl _).bind fun _ => (Within.refl _).bind fun _ =>
      (below .expression _).bind fun _ => .refl _
  · exact (Within.refl _).bind fun _ => (below .parameters _).bind fun _ =>
      (Within.refl _).bind fun _ => (below .expression _).bind fun _ => .refl _

theorem steady_mapping :
    Within (parseMapping place (depth + 1) lexemes) (parseMapping place (depth + 2) lexemes) := by
  unfold parseMapping
  exact (below .expression _).bind fun _ => (Within.refl _).bind fun _ =>
    (below .mapped _).bind fun _ => (Within.refl _).bind fun _ => .refl _

theorem steady_mapped :
    Within (parseMapped place (depth + 1) lexemes) (parseMapped place (depth + 2) lexemes) := by
  unfold parseMapped
  have names : Within (parseParameters depth lexemes) (parseParameters (depth + 1) lexemes) :=
    below .parameters lexemes
  cases found : parseParameters depth lexemes with
  | error stop =>
      cases stop with
      | depth => exact .spent _
      | fault fault =>
          rw [names (by simp [found]), found]
          exact below .expression _
  | ok reading =>
      rw [names (by simp [found]), found]
      dsimp only
      split
      · exact (below .expression _).bind fun _ => .refl _
      · exact below .expression _

theorem steady_steps :
    Within (parseSteps (depth + 1) lexemes) (parseSteps (depth + 2) lexemes) := by
  unfold parseSteps
  split
  · split
    · split
      · exact (Within.refl _).bind fun _ => (below .steps _).bind fun _ => .refl _
      · exact .refl _
    · exact (Within.refl _).bind fun _ => (below .steps _).bind fun _ => .refl _
    · exact .refl _
  · exact .refl _

theorem steady_path :
    Within (parsePath (depth + 1) lexemes) (parsePath (depth + 2) lexemes) := by
  unfold parsePath
  exact (Within.refl _).bind fun _ => (steady_steps below _).bind fun _ => .refl _

theorem steady_parameters :
    Within (parseParameters (depth + 1) lexemes) (parseParameters (depth + 2) lexemes) := by
  unfold parseParameters
  split
  · dsimp only
    split
    · exact (below .parameters _).bind fun _ => .refl _
    · exact .refl _
    · exact .refl _
  · exact .refl _

end

theorem steady (place : List String) : ∀ depth, Steady place depth
  | 0 => fun part lexemes => by
      cases part with
      -- A path is no call of its own: its first key is read before the depth counts.
      | path => exact (Within.refl _).bind fun _ => (Within.spent _).bind fun _ => .refl _
      | key afterDot => exact .refl _
      | index => exact .refl _
      | _ => exact .spent _
  | depth + 1 => fun part lexemes => by
      have below := steady place depth
      cases part with
      | expression => exact steady_expression below lexemes
      | conditional => exact steady_conditional below lexemes
      | chain level => exact steady_chain below lexemes level
      | chainRest level left => exact steady_chainRest below lexemes level left
      | operand level => exact steady_operand below lexemes level
      | unary => exact steady_unary below lexemes
      | calls function => exact steady_calls below lexemes function
      | separated enclosure => exact steady_separated below lexemes enclosure
      | entries enclosure => exact steady_entries below lexemes enclosure
      | primary => exact steady_primary below lexemes
      | lambda => exact steady_lambda below lexemes
      | mapping => exact steady_mapping below lexemes
      | mapped => exact steady_mapped below lexemes
      | path => exact steady_path below lexemes
      | steps => exact steady_steps below lexemes
      | key afterDot => exact .refl _
      | index => exact .refl _
      | parameters => exact steady_parameters below lexemes

/-- What a grammar function gives at some depth it gives at every greater depth. -/
theorem Grammar.Part.run_within (part : Part) {greater : Nat} (less : depth ≤ greater) :
    Within (part.run place depth lexemes) (part.run place greater lexemes) := by
  induction less with
  | refl => exact .refl _
  | step _ induction => exact induction.trans (steady place _ part lexemes)

/-! ## Termination -/

theorem Lexemes.Ended.length_pos (ended : Ended lexemes) : 0 < lexemes.length :=
  match lexemes, ended with
  | _ :: _, _ => Nat.succ_pos _

theorem Grammar.Part.rank_le (part : Part) : part.rank ≤ 17 := by
  cases part with
  | chain level | chainRest level left | operand level =>
      have bounds := level.rank_bounds
      simp only [rank]
      omega
  | _ => simp [rank]

/-- With so much depth a grammar function stops at a token only. -/
theorem Grammar.Part.run_ne_depth (part : Part) (ended : Ended lexemes)
    (enough : 16 * lexemes.length + part.rank ≤ depth) :
    part.run place depth lexemes ≠ .error .depth := by
  intro spent
  have stops : part.Stops place depth lexemes .depth := by
    cases part <;> exact spent
  rcases refusing place depth part ended enough stops with ⟨fault, rest, same, -⟩
  cases same

/-- Every grammar function makes progress and ends. On lexemes whose last one marks the end it
steps over one of them at least where it succeeds, unless it is the loop behind a first operand, a
function or a first key, and never over one that marks the end. Every turn of a loop steps over one
at least, with and without an operator. There is one answer, a reading or a fault, which the
function gives at every depth from thirty-three for each lexeme on, where nested calls and turns of
loops all count. -/
theorem parsing_progress (place : List String) (part : Part) (lexemes : List Lexeme)
    (ended : Ended lexemes) :
    (∀ depth result rest, part.run place depth lexemes = .ok (result, rest) →
      Behind lexemes part.least rest) ∧
    (∀ next rest, Enters place part lexemes next rest → part.Repeats next →
      Behind lexemes 1 rest) ∧
    ∃ answer : Except ParseError (Reading part.Result), ∀ depth, 33 * lexemes.length ≤ depth →
      part.run place depth lexemes = answer.mapError .fault := by
  refine ⟨fun depth result rest ends => (Part.reads_of_run ends).through.behind ended,
    fun next rest enters again => (enters.repeats again).behind ended, ?_⟩
  have positive := ended.length_pos
  have bound := part.rank_le
  have ends : part.run place (33 * lexemes.length) lexemes ≠ .error .depth :=
    part.run_ne_depth ended (by omega)
  cases found : part.run place (33 * lexemes.length) lexemes with
  | ok reading =>
      refine ⟨.ok reading, fun depth enough => ?_⟩
      rw [part.run_within enough ends, found]
      rfl
  | error stop =>
      cases stop with
      | depth => exact absurd found ends
      | fault error =>
          refine ⟨.error error, fun depth enough => ?_⟩
          rw [part.run_within enough ends, found]
          rfl

/-- In `map[l|f g]` the list of parameters is tried first, and `g` follows without an operator. -/
theorem parsing_progress_mapping :
    let word (name : String) (spaced : Bool) : Lexeme := ⟨.identifier name, .start, spaced⟩
    let sign (token : Token) : Lexeme := ⟨token, .start, false⟩
    let behind := [sign .rightBracket, sign .finish]
    let lexemes := word "map" false :: sign .leftBracket :: word "l" false :: sign .pipe ::
      word "f" false :: word "g" true :: behind
    Ended lexemes ∧ Behind lexemes 1 [sign .finish] ∧ Behind (word "g" true :: behind) 1 behind ∧
      ∃ answer : Except ParseError (Reading Expression), ∀ depth, 33 * 8 ≤ depth →
        parseExpression [] depth lexemes = answer.mapError .fault := by
  intro word sign behind lexemes
  have ended : Ended lexemes := rfl
  have whole := parsing_progress [] .expression lexemes ended
  have turn := parsing_progress [] (.chainRest .additive (.reference ["f"]))
    (word "g" true :: behind) rfl
  have mapping : parseExpression [] 40 lexemes =
      .ok (.mapping (.reference ["l"])
        (.binary .concatenation (.reference ["f"]) (.reference ["g"])), [sign .finish]) := by
    cbv
  have operand : parseOperand [] 40 .additive (word "g" true :: behind) =
      .ok (.reference ["g"], behind) := by
    cbv
  exact ⟨ended, whole.1 40 _ _ mapping,
    turn.2.1 (.chainRest .additive _) _ (.chainMore rfl (derives [] 40 (.operand _ _) operand)) rfl,
    whole.2.2⟩

end Stencil
