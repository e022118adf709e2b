import Stencil.Proofs.Expression.Derivation

namespace Stencil

open Lexemes Grammar

/-! Every derivation uses up lexemes: it steps over tokens, never over the end, and never over a
dot that stands right before the end. -/

/-- The last lexeme, and maybe an earlier one, marks the end. -/
def Lexemes.Ended : List Lexeme → Prop
  | [] => False
  | [lexeme] => lexeme.token = .finish
  | _ :: rest => Ended rest

namespace Lexemes.Ended

theorem advance {lexemes : List Lexeme} (ended : Ended lexemes) : Ended (advance lexemes) := by
  match lexemes, ended with
  | [_], ended => exact ended
  | _ :: _ :: _, ended => exact ended

end Lexemes.Ended

/-- These lexemes are reached from those by stepping over at least so many, none of which marks an
end. -/
structure Behind (lexemes : List Lexeme) (least : Nat) (rest : List Lexeme) : Prop where
  ended : Ended rest
  taken : ∃ taken, lexemes = taken ++ rest ∧ least ≤ taken.length ∧
    ∀ lexeme ∈ taken, lexeme.token ≠ .finish

namespace Behind

variable {lexemes middle rest : List Lexeme} {least least' : Nat}

theorem shorter (behind : Behind lexemes least rest) :
    rest.length + least ≤ lexemes.length := by
  rcases behind.taken with ⟨taken, rfl, enough, -⟩
  rw [List.length_append]
  omega

theorem refl (ended : Ended lexemes) : Behind lexemes 0 lexemes :=
  ⟨ended, [], rfl, Nat.le_refl _, fun _ member => nomatch member⟩

theorem step (behind : Behind lexemes least rest) (goes : peek rest ≠ .finish) :
    Behind lexemes (least + 1) (advance rest) := by
  rcases behind with ⟨ended, taken, rfl, enough, others⟩
  refine ⟨ended.advance, ?_⟩
  match rest, ended with
  | [_], ended => exact absurd ended goes
  | first :: next :: rest, _ =>
      refine ⟨taken ++ [first], by rw [List.append_assoc]; rfl, ?_, ?_⟩
      · rw [List.length_append]
        exact Nat.succ_le_succ enough
      · exact List.forall_mem_append.mpr ⟨others, List.forall_mem_singleton.mpr goes⟩

theorem trans (first : Behind lexemes least middle) (second : Behind middle least' rest) :
    Behind lexemes (least + least') rest := by
  rcases first with ⟨-, front, rfl, enough, others⟩
  rcases second with ⟨ended, back, rfl, enough', others'⟩
  refine ⟨ended, front ++ back, (List.append_assoc ..).symm, ?_,
    List.forall_mem_append.mpr ⟨others, others'⟩⟩
  rw [List.length_append]
  exact Nat.add_le_add enough enough'

theorem weaken (behind : Behind lexemes least rest) (less : least' ≤ least) :
    Behind lexemes least' rest := by
  rcases behind with ⟨ended, taken, same, enough, others⟩
  exact ⟨ended, taken, same, less.trans enough, others⟩

end Behind

/-- A dot stands right before the end. -/
def Lexemes.Dangling : List Lexeme → Prop
  | [] | [_] => False
  | [dot, finish] => dot.token = .dot ∧ finish.token = .finish
  | lexeme :: rest => lexeme.token ≠ .finish ∧ Dangling rest

/-- The grammar steps over every token but the end and a dot right before it. -/
structure Lexemes.Passes (lexemes : List Lexeme) : Prop where
  goes : peek lexemes ≠ .finish
  dot : peek lexemes = .dot → peek (advance lexemes) ≠ .finish

theorem Lexemes.Passes.of_peek {lexemes : List Lexeme} {token : Token}
    (found : peek lexemes = token) (other : token ≠ .finish ∧ token ≠ .dot) : Passes lexemes where
  goes := found ▸ other.1
  dot dot := absurd (found.symm.trans dot) other.2

namespace Lexemes.Dangling

theorem cons {lexeme : Lexeme} {lexemes : List Lexeme} (dangling : Dangling lexemes)
    (goes : lexeme.token ≠ .finish) : Dangling (lexeme :: lexemes) := by
  match lexemes, dangling with
  | [_, _], dangling | _ :: _ :: _ :: _, dangling => exact ⟨goes, dangling⟩

theorem advance {lexemes : List Lexeme} (dangling : Dangling lexemes) (passes : Passes lexemes) :
    Dangling (advance lexemes) := by
  match lexemes, dangling with
  | [_, _], dangling => exact absurd dangling.2 (passes.dot dangling.1)
  | _ :: _ :: _ :: _, dangling => exact dangling.2

theorem peek {lexemes : List Lexeme} (dangling : Dangling lexemes) :
    Lexemes.peek lexemes ≠ .finish := by
  match lexemes, dangling with
  | [dot, _], dangling =>
      intro finish
      exact absurd (dangling.1.symm.trans finish) (by simp)
  | _ :: _ :: _ :: _, dangling => exact dangling.1

end Lexemes.Dangling

/-- These lexemes are reached from those by steps over tokens of which so many are taken at
least. -/
structure Through (lexemes : List Lexeme) (least : Nat) (rest : List Lexeme) : Prop where
  behind : Ended lexemes → Behind lexemes least rest
  dangling : Dangling lexemes → Dangling rest

namespace Through

variable {lexemes middle rest : List Lexeme} {least least' : Nat}

theorem refl : Through lexemes 0 lexemes := ⟨.refl, id⟩

theorem step (through : Through lexemes least rest) (passes : Passes rest) :
    Through lexemes (least + 1) (advance rest) where
  behind ended := (through.behind ended).step passes.goes
  dangling dangling := (through.dangling dangling).advance passes

theorem trans (first : Through lexemes least middle) (second : Through middle least' rest) :
    Through lexemes (least + least') rest where
  behind ended :=
    have behind := first.behind ended
    behind.trans (second.behind behind.ended)
  dangling dangling := second.dangling (first.dangling dangling)

theorem weaken (through : Through lexemes least rest) (less : least' ≤ least) :
    Through lexemes least' rest :=
  ⟨fun ended => (through.behind ended).weaken less, through.dangling⟩

end Through

/-! ## Every phrase takes lexemes -/

variable {lexemes rest : List Lexeme}

theorem ne_finish_of_peek {token : Token} (found : peek lexemes = token)
    (other : token ≠ .finish) : peek lexemes ≠ .finish := by
  rw [found]
  exact other

theorem parseIndex_through {step : String}
    (ends : parseIndex lexemes = .ok (step, rest)) : Through lexemes 1 rest := by
  unfold parseIndex at ends
  split at ends
  · rename_i index number
    rcases ok_of_bind ends with ⟨last, close, ends⟩
    rcases expect_eq_ok close with ⟨found, rfl⟩
    cases ends
    have first := Through.refl.step (.of_peek number (by simp))
    exact (first.step (.of_peek found (by simp))).weaken (by omega)
  · cases ends

theorem parseKey_through {afterDot : Bool} {step : String}
    (ends : parseKey afterDot lexemes = .ok (step, rest)) : Through lexemes 1 rest := by
  unfold parseKey at ends
  split at ends
  · rename_i word
    cases ends
    exact Through.refl.step (.of_peek word (by simp))
  · rename_i number
    cases ends
    exact Through.refl.step (.of_peek number (by simp))
  · rename_i bracket
    have first := Through.refl.step (.of_peek bracket (by simp))
    exact (first.trans (parseIndex_through ends)).weaken (by omega)
  · cases ends

/-- No key is read from the end. -/
theorem ne_finish_of_parseKey {afterDot : Bool} {step : String}
    (ends : parseKey afterDot lexemes = .ok (step, rest)) : peek lexemes ≠ .finish := by
  intro finish
  unfold parseKey at ends
  simp only [finish] at ends
  cases ends

theorem Grammar.Steps.through {steps : List String} (reads : Steps steps lexemes rest) :
    Through lexemes 0 rest := by
  induction reads with
  | key touches dot follows first others induction =>
      have passes : Passes _ :=
        ⟨ne_finish_of_peek dot (by simp), fun _ => ne_finish_of_parseKey first⟩
      have key := (Through.refl.step passes).trans (parseKey_through first)
      exact (key.trans induction).weaken (by omega)
  | index touches bracket first others induction =>
      have sign := Through.refl.step (.of_peek bracket (by simp))
      have index := sign.trans (parseIndex_through first)
      exact (index.trans induction).weaken (by omega)
  | halt => exact .refl

theorem Grammar.Path.through {path : List String} (reads : Path path lexemes rest) :
    Through lexemes 1 rest := by
  cases reads with
  | path first others => exact (parseKey_through first).trans others.through

theorem Grammar.Path.ne_finish {path : List String} (reads : Path path lexemes rest) :
    peek lexemes ≠ .finish := by
  cases reads with
  | path first others => exact ne_finish_of_parseKey first

theorem Grammar.Parameters.through {names : List String}
    (reads : Parameters names lexemes rest) : Through lexemes 1 rest := by
  induction reads with
  | last word bar =>
      have name := Through.refl.step (.of_peek word (by simp))
      exact (name.step (.of_peek bar (by simp))).weaken (by omega)
  | more word comma others induction =>
      have name := Through.refl.step (.of_peek word (by simp))
      have sign := name.step (.of_peek comma (by simp))
      exact (sign.trans induction).weaken (by omega)

theorem behindReplace_through : Through lexemes 0 (behindReplace lexemes) := by
  unfold behindReplace
  split
  · rename_i word
    exact (Through.refl.step (.of_peek word (by simp))).weaken (by omega)
  · exact .refl

/-- A dot is no sign: it starts an operand. -/
theorem Level.passes_of_operator {level : Level} {operator : Operator}
    (sign : level.operator? (peek lexemes) = some operator)
    (signed : operator ≠ .concatenation) : Passes lexemes := by
  refine .of_peek rfl ⟨fun found => ?_, fun found => ?_⟩
  · rw [found] at sign
    cases level <;> cases sign
  · rw [found] at sign
    cases level <;> cases sign
    exact signed rfl

/-- The operand behind an operator starts behind its sign, if it has one. -/
theorem Level.through_sign {level : Level} {operator : Operator}
    (sign : level.operator? (peek lexemes) = some operator) :
    Through lexemes 0 (if operator = .concatenation then lexemes else advance lexemes) := by
  split
  · exact .refl
  · rename_i signed
    exact (Through.refl.step (passes_of_operator sign signed)).weaken (by omega)

theorem Grammar.Enclosure.close_ne_finish (enclosure : Enclosure) : enclosure.close ≠ .finish := by
  cases enclosure <;> simp [Enclosure.close]

theorem Grammar.Enclosure.close_ne_dot (enclosure : Enclosure) : enclosure.close ≠ .dot := by
  cases enclosure <;> simp [Enclosure.close]

/-- The lexemes that a phrase takes at least. -/
def Grammar.Phrase.least : Phrase → Nat
  | .chainRest _ _ _ | .calls _ _ => 0
  | _ => 1

theorem Grammar.Reads.through {place : List String} {phrase : Phrase}
    (reads : Reads place phrase lexemes rest) : Through lexemes phrase.least rest := by
  induction reads with
  | preferred starts _ inner =>
      have sign := Through.refl.step (.of_peek starts.1 (by simp))
      exact (sign.trans inner).weaken (by simp [Phrase.least])
  | expression _ _ inner => exact inner
  | conditional _ question _ colon _ first second third =>
      have sign := first.step (.of_peek question (by simp))
      have consequence := sign.trans second
      have other := consequence.step (.of_peek colon (by simp))
      exact (other.trans third).weaken (by simp [Phrase.least])
  | unconditional _ _ inner => exact inner
  | chain _ _ first others => exact first.trans others
  | chainOver => exact .refl
  | chainMore sign _ _ next others =>
      have operand := (Level.through_sign sign).trans next
      exact (operand.trans others).weaken (by simp [Phrase.least])
  | tighter _ _ inner => exact inner
  | tightest _ _ inner => exact inner
  | not bang _ inner =>
      have sign := Through.refl.step (.of_peek bang (by simp))
      exact (sign.trans inner).weaken (by simp [Phrase.least])
  | negative minus number _ =>
      have sign := Through.refl.step (.of_peek minus (by simp))
      exact (sign.step (.of_peek number (by simp))).weaken (by simp [Phrase.least])
  | minus minus _ _ inner =>
      have sign := Through.refl.step (.of_peek minus (by simp))
      exact (sign.trans inner).weaken (by simp [Phrase.least])
  | applied _ _ _ _ first others => exact first.trans others
  | called parenthesis _ _ _ inside others =>
      have sign := Through.refl.step (.of_peek parenthesis (by simp))
      have arguments := sign.trans inside
      exact (arguments.trans others).weaken (by simp [Phrase.least])
  | callsOver => exact .refl
  | @nothing _ enclosure close =>
      exact Through.refl.step (.of_peek close ⟨enclosure.close_ne_finish, enclosure.close_ne_dot⟩)
  | something _ _ inner => exact inner
  | @last _ _ enclosure _ _ close inner =>
      exact (inner.step (.of_peek close ⟨enclosure.close_ne_finish, enclosure.close_ne_dot⟩)).weaken
        (by simp [Phrase.least])
  | more _ comma _ first others =>
      have sign := first.step (.of_peek comma (by simp))
      exact (sign.trans others).weaken (by simp [Phrase.least])
  | integer number => exact Through.refl.step (.of_peek number (by simp))
  | text literal => exact Through.refl.step (.of_peek literal (by simp))
  | group parenthesis _ close inner =>
      have sign := Through.refl.step (.of_peek parenthesis (by simp))
      exact ((sign.trans inner).step (.of_peek close (by simp))).weaken (by simp [Phrase.least])
  | list bracket _ inside =>
      have sign := Through.refl.step (.of_peek bracket (by simp))
      exact (sign.trans inside).weaken (by simp [Phrase.least])
  | root dot _ steps =>
      have passes : Passes _ := ⟨ne_finish_of_peek dot (by simp), fun _ => steps.ne_finish⟩
      have sign := Through.refl.step passes
      exact (sign.trans steps.through).weaken (by simp [Phrase.least])
  | nil word | yes word | no word | auto word =>
      exact Through.refl.step (.of_peek word (by simp))
  | redirected word _ steps =>
      have sign := Through.refl.step (.of_peek word (by simp))
      have start := sign.trans behindReplace_through
      exact (start.trans steps.through).weaken (by simp [Phrase.least])
  | merge word _ =>
      have sign := Through.refl.step (.of_peek word (by simp))
      exact sign.trans behindReplace_through
  | lambda starts _ inner =>
      have sign := Through.refl.step (.of_peek starts.1 (by simp))
      exact (sign.trans inner).weaken (by simp [Phrase.least])
  | mapping starts _ inner =>
      have word := Through.refl.step (.of_peek starts.1 (by simp))
      have sign := word.step (.of_peek starts.2.1 (by simp))
      exact (sign.trans inner).weaken (by simp [Phrase.least])
  | reference _ _ _ _ steps => exact steps.through
  | bare bars arrow _ inner =>
      have sign := Through.refl.step (.of_peek bars (by simp))
      have start := sign.step (.of_peek arrow (by simp))
      exact (start.trans inner).weaken (by simp [Phrase.least])
  | named bar names arrow _ inner =>
      have sign := Through.refl.step (.of_peek bar (by simp))
      have start := (sign.trans names.through).step (.of_peek arrow (by simp))
      exact (start.trans inner).weaken (by simp [Phrase.least])
  | mappingOf _ bar _ close first second =>
      have sign := first.step (.of_peek bar (by simp))
      exact ((sign.trans second).step (.of_peek close (by simp))).weaken
        (by simp [Phrase.least])
  | short names arrow _ inner =>
      have start := names.through.step (.of_peek arrow (by simp))
      exact (start.trans inner).weaken (by simp [Phrase.least])
  | full _ _ inner => exact inner

theorem Grammar.Reads.behind {place : List String} {phrase : Phrase}
    (reads : Reads place phrase lexemes rest) (ended : Ended lexemes) :
    Behind lexemes phrase.least rest :=
  reads.through.behind ended

end Stencil
