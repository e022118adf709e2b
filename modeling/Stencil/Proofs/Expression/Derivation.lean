import Stencil.Proofs.Expression.Grammar

namespace Stencil

open Lexemes Grammar

/-! The grammar functions read exactly the phrases that have a derivation. -/

/-- The grammar function of a phrase reads it, at this depth. -/
def Grammar.Phrase.IsRead (place : List String) (depth : Nat) (lexemes rest : List Lexeme) :
    Phrase → Prop
  | .expression read => parseExpression place depth lexemes = .ok (read, rest)
  | .conditional read => parseConditional place depth lexemes = .ok (read, rest)
  | .chain level read => parseChain place depth level lexemes = .ok (read, rest)
  | .chainRest level left read => parseChainRest place depth level left lexemes = .ok (read, rest)
  | .operand level read => parseOperand place depth level lexemes = .ok (read, rest)
  | .unary read => parseUnary place depth lexemes = .ok (read, rest)
  | .calls function read => parseCalls place depth function lexemes = .ok (read, rest)
  | .separated enclosure read =>
      parseSeparated place depth enclosure.close enclosure.rule lexemes = .ok (read, rest)
  | .entries enclosure read =>
      parseEntries place depth enclosure.close enclosure.rule lexemes = .ok (read, rest)
  | .primary read => parsePrimary place depth lexemes = .ok (read, rest)
  | .lambda read => parseLambda place depth lexemes = .ok (read, rest)
  | .mapping read => parseMapping place depth lexemes = .ok (read, rest)
  | .mapped read => parseMapped place depth lexemes = .ok (read, rest)

theorem expect_eq_ok {wanted : Token} {rule : Rule} {lexemes rest : List Lexeme}
    (ends : expect wanted rule lexemes = .ok rest) :
    peek lexemes = wanted ∧ rest = advance lexemes := by
  unfold expect at ends
  split at ends
  · rename_i found
    cases ends
    exact ⟨found, rfl⟩
  · cases ends

theorem expect_of_peek {wanted : Token} (rule : Rule) {lexemes : List Lexeme}
    (found : peek lexemes = wanted) : expect wanted rule lexemes = .ok (advance lexemes) :=
  if_pos found

/-! ## What is read has a derivation -/

theorem steps_of_parse {depth : Nat} {lexemes rest : List Lexeme} {steps : List String}
    (ends : parseSteps depth lexemes = .ok (steps, rest)) : Steps steps lexemes rest := by
  induction depth generalizing lexemes steps with
  | zero => cases ends
  | succ depth induction =>
      unfold parseSteps at ends
      split at ends
      · rename_i touches
        split at ends
        · rename_i dot
          split at ends
          · rename_i follows
            rcases ok_of_bind ends with ⟨⟨step, behind⟩, first, ends⟩
            rcases ok_of_bind ends with ⟨⟨others, last⟩, next, ends⟩
            cases ends
            exact .key touches dot follows first (induction next)
          · rename_i apart
            cases ends
            refine .halt fun further => ?_
            rcases further.2 with bracket | ⟨_, follows⟩
            · rw [dot] at bracket
              cases bracket
            · exact apart follows
        · rename_i bracket
          rcases ok_of_bind ends with ⟨⟨step, behind⟩, first, ends⟩
          rcases ok_of_bind ends with ⟨⟨others, last⟩, next, ends⟩
          cases ends
          exact .index touches bracket first (induction next)
        · rename_i other bracket
          cases ends
          refine .halt fun further => ?_
          rcases further.2 with found | ⟨found, _⟩
          · exact bracket found
          · exact other found
      · rename_i apart
        cases ends
        exact .halt fun further => apart further.1

theorem path_of_parse {depth : Nat} {lexemes rest : List Lexeme} {path : List String}
    (ends : parsePath depth lexemes = .ok (path, rest)) : Path path lexemes rest := by
  rcases ok_of_bind ends with ⟨⟨step, behind⟩, first, ends⟩
  rcases ok_of_bind ends with ⟨⟨others, last⟩, next, ends⟩
  cases ends
  exact .path first (steps_of_parse next)

theorem parameters_of_parse {depth : Nat} {lexemes rest : List Lexeme} {names : List String}
    (ends : parseParameters depth lexemes = .ok (names, rest)) :
    Parameters names lexemes rest := by
  induction depth generalizing lexemes names with
  | zero => cases ends
  | succ depth induction =>
      unfold parseParameters at ends
      split at ends
      · rename_i name word
        dsimp only at ends
        split at ends
        · rename_i comma
          rcases ok_of_bind ends with ⟨⟨others, last⟩, next, ends⟩
          cases ends
          exact .more word comma (induction next)
        · rename_i bar
          cases ends
          exact .last word bar
        · cases ends
      · cases ends

/-- Where reading a parameter list fails there is none. -/
theorem not_parameters_of_fault {depth : Nat} {lexemes : List Lexeme} {error : ParseError}
    (fails : parseParameters depth lexemes = .error (.fault error)) (names : List String)
    (rest : List Lexeme) : ¬ Parameters names lexemes rest := by
  induction depth generalizing lexemes names with
  | zero => cases fails
  | succ depth induction =>
      intro parameters
      unfold parseParameters at fails
      cases parameters with
      | last word bar =>
          rw [word] at fails
          dsimp only at fails
          rw [bar] at fails
          cases fails
      | more word comma others =>
          rw [word] at fails
          dsimp only at fails
          rw [comma] at fails
          dsimp only at fails
          cases next : parseParameters depth (advance (advance lexemes)) with
          | ok result =>
              rw [next] at fails
              cases fails
          | error cause =>
              rw [next] at fails
              cases fails
              exact induction next _ others

theorem Grammar.Parameters.unique {names names' : List String} {lexemes rest rest' : List Lexeme}
    (first : Parameters names lexemes rest) (second : Parameters names' lexemes rest') :
    names = names' ∧ rest = rest' := by
  induction first generalizing names' with
  | last word bar =>
      cases second with
      | last word' bar' =>
          rw [word] at word'
          cases word'
          exact ⟨rfl, rfl⟩
      | more word' comma others =>
          rw [bar] at comma
          cases comma
  | more word comma others induction =>
      cases second with
      | last word' bar =>
          rw [comma] at bar
          cases bar
      | more word' comma' others' =>
          rw [word] at word'
          cases word'
          rcases induction others' with ⟨rfl, rfl⟩
          exact ⟨rfl, rfl⟩

/-- Up to a depth, what is read has a derivation. -/
def Grammar.Derives (place : List String) (depth : Nat) : Prop :=
  ∀ (phrase : Phrase) {lexemes rest : List Lexeme},
    phrase.IsRead place depth lexemes rest → Reads place phrase lexemes rest

section

variable {place : List String} {depth : Nat} {lexemes rest : List Lexeme} {read : Expression}

theorem reads_expression (below : Derives place depth)
    (ends : parseExpression place (depth + 1) lexemes = .ok (read, rest)) :
    Reads place (.expression read) lexemes rest := by
  unfold parseExpression at ends
  dsimp only at ends
  split at ends
  · rename_i starts
    rcases ok_of_bind ends with ⟨⟨inner, last⟩, next, ends⟩
    cases ends
    exact .preferred starts (below (.conditional _) next)
  · rename_i starts
    exact .expression starts (below (.conditional _) ends)

theorem reads_conditional (below : Derives place depth)
    (ends : parseConditional place (depth + 1) lexemes = .ok (read, rest)) :
    Reads place (.conditional read) lexemes rest := by
  unfold parseConditional at ends
  rcases ok_of_bind ends with ⟨⟨condition, middle⟩, first, ends⟩
  dsimp only at ends
  split at ends
  · rename_i question
    rcases ok_of_bind ends with ⟨⟨consequence, behind⟩, second, ends⟩
    rcases ok_of_bind ends with ⟨last, colon, ends⟩
    rcases expect_eq_ok colon with ⟨found, rfl⟩
    rcases ok_of_bind ends with ⟨⟨alternative, last⟩, third, ends⟩
    cases ends
    exact .conditional (below (.chain _ _) first) question
      (below (.expression _) second) found (below (.expression _) third)
  · rename_i question
    cases ends
    exact .unconditional (below (.chain _ _) first) question

theorem reads_chain (below : Derives place depth) {level : Level}
    (ends : parseChain place (depth + 1) level lexemes = .ok (read, rest)) :
    Reads place (.chain level read) lexemes rest := by
  unfold parseChain at ends
  rcases ok_of_bind ends with ⟨⟨left, middle⟩, first, ends⟩
  exact .chain (below (.operand _ _) first) (below (.chainRest _ _ _) ends)

theorem reads_chainRest (below : Derives place depth) {level : Level} {left : Expression}
    (ends : parseChainRest place (depth + 1) level left lexemes = .ok (read, rest)) :
    Reads place (.chainRest level left read) lexemes rest := by
  unfold parseChainRest at ends
  split at ends
  · rename_i halt
    cases ends
    exact .chainOver halt
  · rename_i operator sign
    rcases ok_of_bind ends with ⟨⟨right, middle⟩, next, ends⟩
    exact .chainMore sign (below (.operand _ _) next)
      (below (.chainRest _ _ _) ends)

theorem reads_operand (below : Derives place depth) {level : Level}
    (ends : parseOperand place (depth + 1) level lexemes = .ok (read, rest)) :
    Reads place (.operand level read) lexemes rest := by
  unfold parseOperand at ends
  split at ends
  · rename_i tighter held
    exact .tighter held (below (.chain _ _) ends)
  · rename_i held
    exact .tightest held (below (.unary _) ends)

theorem reads_unary (below : Derives place depth)
    (ends : parseUnary place (depth + 1) lexemes = .ok (read, rest)) :
    Reads place (.unary read) lexemes rest := by
  unfold parseUnary at ends
  split at ends
  · rename_i bang
    rcases ok_of_bind ends with ⟨⟨operand, last⟩, next, ends⟩
    cases ends
    exact .not bang (below (.unary _) next)
  · rename_i minus
    dsimp only at ends
    split at ends
    · rename_i value number touches
      cases ends
      exact .negative minus number touches
    · rename_i other
      rcases ok_of_bind ends with ⟨⟨operand, last⟩, next, ends⟩
      cases ends
      refine .minus minus ?_ (below (.unary _) next)
      rintro ⟨⟨value, number⟩, touches⟩
      exact other value number touches
  · rename_i bang minus
    rcases ok_of_bind ends with ⟨⟨function, middle⟩, first, ends⟩
    exact .applied bang minus (below (.primary _) first)
      (below (.calls _ _) ends)

theorem reads_calls (below : Derives place depth) {function : Expression}
    (ends : parseCalls place (depth + 1) function lexemes = .ok (read, rest)) :
    Reads place (.calls function read) lexemes rest := by
  unfold parseCalls at ends
  split at ends
  · rename_i opens
    rcases ok_of_bind ends with ⟨⟨arguments, middle⟩, inside, ends⟩
    exact .called opens.1 opens.2 (below (.separated .arguments _) inside)
      (below (.calls _ _) ends)
  · rename_i halt
    cases ends
    exact .callsOver halt

theorem reads_separated (below : Derives place depth) {enclosure : Enclosure}
    {read : List Expression}
    (ends : parseSeparated place (depth + 1) enclosure.close enclosure.rule lexemes =
      .ok (read, rest)) :
    Reads place (.separated enclosure read) lexemes rest := by
  unfold parseSeparated at ends
  split at ends
  · rename_i close
    cases ends
    exact .nothing close
  · rename_i close
    exact .something close (below (.entries _ _) ends)

theorem reads_entries (below : Derives place depth) {enclosure : Enclosure}
    {read : List Expression}
    (ends : parseEntries place (depth + 1) enclosure.close enclosure.rule lexemes =
      .ok (read, rest)) :
    Reads place (.entries enclosure read) lexemes rest := by
  unfold parseEntries at ends
  rcases ok_of_bind ends with ⟨⟨entry, middle⟩, first, ends⟩
  dsimp only at ends
  split at ends
  · rename_i close
    cases ends
    exact .last (below (.expression _) first) close
  · rcases ok_of_bind ends with ⟨last, comma, ends⟩
    rcases expect_eq_ok comma with ⟨found, rfl⟩
    rcases ok_of_bind ends with ⟨⟨entries, last⟩, next, ends⟩
    cases ends
    exact .more (below (.expression _) first) found
      (below (.entries _ _) next)

theorem reads_merge {lexemes : List Lexeme} (word : peek lexemes = .identifier "merge")
    (ends : parseMerge place depth (advance lexemes) = .ok (read, rest)) :
    Reads place (.primary read) lexemes rest := by
  simp only [parseMerge] at ends
  split at ends
  · rename_i name key
    rcases ok_of_bind ends with ⟨⟨path, last⟩, steps, ends⟩
    cases ends
    exact .redirected word key (path_of_parse steps)
  · rename_i key
    cases ends
    exact .merge word key

theorem reads_primary (below : Derives place depth)
    (ends : parsePrimary place (depth + 1) lexemes = .ok (read, rest)) :
    Reads place (.primary read) lexemes rest := by
  unfold parsePrimary at ends
  dsimp only at ends
  split at ends
  · rename_i value number
    cases ends
    exact .integer number
  · rename_i value literal
    cases ends
    exact .text literal
  · rename_i parenthesis
    rcases ok_of_bind ends with ⟨⟨inner, last⟩, next, ends⟩
    rcases ok_of_bind ends with ⟨last, close, ends⟩
    rcases expect_eq_ok close with ⟨found, rfl⟩
    cases ends
    exact .group parenthesis (below (.expression _) next) found
  · rename_i bracket
    rcases ok_of_bind ends with ⟨⟨entries, last⟩, inside, ends⟩
    cases ends
    exact .list bracket (below (.separated .entries _) inside)
  · rename_i dot
    split at ends
    · rename_i touches
      rcases ok_of_bind ends with ⟨⟨path, last⟩, steps, ends⟩
      cases ends
      exact .root dot touches (path_of_parse steps)
    · cases ends
  · rename_i word
    cases ends
    exact .nil word
  · rename_i word
    cases ends
    exact .yes word
  · rename_i word
    cases ends
    exact .no word
  · rename_i word
    exact reads_merge word ends
  · rename_i word
    cases ends
    exact .auto word
  · rename_i name nil yes no merge auto word
    split at ends
    · rename_i starts
      rcases starts with ⟨rfl, bars⟩
      exact .lambda ⟨word, bars⟩ (below (.lambda _) ends)
    · rename_i lambda
      split at ends
      · rename_i starts
        rcases starts with ⟨rfl, opens⟩
        exact .mapping ⟨word, opens⟩ (below (.mapping _) ends)
      · rename_i mapping
        rcases ok_of_bind ends with ⟨⟨path, last⟩, steps, ends⟩
        cases ends
        have named : ∀ {other : String}, peek lexemes = .identifier other → name = other := by
          intro other found
          rw [word] at found
          exact Token.identifier.inj found
        refine .reference word ?_ ?_ ?_ (path_of_parse steps)
        · simp only [reserved, List.mem_cons, List.not_mem_nil, or_false, not_or]
          exact ⟨nil, yes, no, merge, auto⟩
        · exact fun starts => lambda ⟨named starts.1, starts.2⟩
        · exact fun starts => mapping ⟨named starts.1, starts.2⟩
  · cases ends

theorem reads_lambda (below : Derives place depth)
    (ends : parseLambda place (depth + 1) lexemes = .ok (read, rest)) :
    Reads place (.lambda read) lexemes rest := by
  unfold parseLambda at ends
  dsimp only at ends
  split at ends
  · rename_i bars
    change (expect .arrow .lambda (advance lexemes) >>= _) = .ok (read, rest) at ends
    rcases ok_of_bind ends with ⟨behind, arrow, ends⟩
    rcases expect_eq_ok arrow with ⟨found, rfl⟩
    rcases ok_of_bind ends with ⟨⟨body, last⟩, next, ends⟩
    cases ends
    exact .bare bars found (below (.expression _) next)
  · rcases ok_of_bind ends with ⟨last, bar, ends⟩
    rcases expect_eq_ok bar with ⟨opens, rfl⟩
    rcases ok_of_bind ends with ⟨⟨parameters, middle⟩, names, ends⟩
    rcases ok_of_bind ends with ⟨behind, arrow, ends⟩
    rcases expect_eq_ok arrow with ⟨found, rfl⟩
    rcases ok_of_bind ends with ⟨⟨body, last⟩, next, ends⟩
    cases ends
    exact .named opens (parameters_of_parse names) found (below (.expression _) next)

theorem reads_mapping (below : Derives place depth)
    (ends : parseMapping place (depth + 1) lexemes = .ok (read, rest)) :
    Reads place (.mapping read) lexemes rest := by
  unfold parseMapping at ends
  rcases ok_of_bind ends with ⟨⟨collection, middle⟩, first, ends⟩
  rcases ok_of_bind ends with ⟨behind, bar, ends⟩
  rcases expect_eq_ok bar with ⟨opens, rfl⟩
  rcases ok_of_bind ends with ⟨⟨function, behind⟩, second, ends⟩
  rcases ok_of_bind ends with ⟨last, close, ends⟩
  rcases expect_eq_ok close with ⟨closes, rfl⟩
  cases ends
  exact .mappingOf (below (.expression _) first) opens (below (.mapped _) second) closes

theorem reads_mapped (below : Derives place depth)
    (ends : parseMapped place (depth + 1) lexemes = .ok (read, rest)) :
    Reads place (.mapped read) lexemes rest := by
  unfold parseMapped at ends
  split at ends
  · cases ends
  · rename_i error fails
    exact .full (fun names middle found => absurd found (not_parameters_of_fault fails _ _))
      (below (.expression _) ends)
  · rename_i parameters behind names
    have names := parameters_of_parse names
    split at ends
    · rename_i arrow
      rcases ok_of_bind ends with ⟨⟨body, last⟩, next, ends⟩
      cases ends
      exact .short names arrow (below (.expression _) next)
    · rename_i arrow
      refine .full ?_ (below (.expression _) ends)
      intro others middle found
      rcases names.unique found with ⟨_, rfl⟩
      exact arrow

end

theorem derives (place : List String) : ∀ depth, Derives place depth
  | 0 => fun phrase _ _ ends => by cases phrase <;> cases ends
  | depth + 1 => fun phrase _ _ ends => by
      have below := derives place depth
      cases phrase with
      | expression read => exact reads_expression below ends
      | conditional read => exact reads_conditional below ends
      | chain level read => exact reads_chain below ends
      | chainRest level left read => exact reads_chainRest below ends
      | operand level read => exact reads_operand below ends
      | unary read => exact reads_unary below ends
      | calls function read => exact reads_calls below ends
      | separated enclosure read => exact reads_separated below ends
      | entries enclosure read => exact reads_entries below ends
      | primary read => exact reads_primary below ends
      | lambda read => exact reads_lambda below ends
      | mapping read => exact reads_mapping below ends
      | mapped read => exact reads_mapped below ends

end Stencil
