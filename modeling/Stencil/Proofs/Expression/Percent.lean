import Stencil.Proofs.Expression.RoundTrip
import Stencil.Proofs.Text.Characters

namespace Stencil

open Lexemes Grammar

/-! Expressions in whose written form no percent sign stands. Their parts are such expressions
too, and nothing else is read from a source without a percent sign. -/

theorem noDigit_percent : NoDigit '%' := .of_not_mem (by decide) (by decide)

theorem toString_lacksPercent (number : Int) : Text.lacks '%' (toString number) :=
  noDigit_percent.toString_int (by decide) number

theorem mem_escapeCharacter {character : Char} :
    '%' ∈ escapeCharacter character ↔ character = '%' := by
  unfold escapeCharacter
  split <;> simp [eq_comm]

/-! ## Parts of expressions -/

namespace Expression

def withoutPercent (expression : Expression) : Bool := Text.lacks '%' expression.print

section
variable {condition consequence alternative left right inner function body : Expression}
  {entries arguments : List Expression} {path parameters : List String} {place : List String}
  {redirected replacing : Bool} {operator : Operator}

theorem withoutPercent_iff {expression : Expression} :
    expression.withoutPercent ↔ '%' ∉ expression.print.toList := Text.lacks_iff

theorem integer_withoutPercent (value : Int64) : (integer value).withoutPercent :=
  toString_lacksPercent value.toInt

theorem auto_withoutPercent (path : List String) : (auto path).withoutPercent := by
  simp [withoutPercent_iff, print]

theorem merge_withoutPercent (place : List String) (replacing : Bool) :
    (merge place false replacing).withoutPercent := by
  cases replacing <;> simp [withoutPercent_iff, print]

theorem withoutPercent_text {value : String} :
    (text value).withoutPercent ↔ Text.lacks '%' value := by
  simp [withoutPercent_iff, print, escape, Text.lacks_iff, mem_escapeCharacter]

theorem pathText_lacksPercent : Text.lacks '%' (pathText path) ↔ ∀ step ∈ path, Text.lacks '%' step :=
  Text.lacks_intercalate (by decide) path

theorem parametersText_lacksPercent :
    Text.lacks '%' (parametersText parameters) ↔ ∀ name ∈ parameters, Text.lacks '%' name :=
  Text.lacks_intercalate (by decide) parameters

theorem withoutPercent_reference :
    (reference path).withoutPercent ↔ ∀ step ∈ path, Text.lacks '%' step :=
  pathText_lacksPercent

theorem withoutPercent_redirected :
    (merge path true replacing).withoutPercent ↔ ∀ step ∈ path, Text.lacks '%' step := by
  rw [← pathText_lacksPercent]
  cases replacing <;> simp [withoutPercent_iff, print, Text.lacks_iff]

theorem printSeparated_lacksPercent :
    Text.lacks '%' (printSeparated entries) ↔ ∀ entry ∈ entries, entry.withoutPercent := by
  induction entries with
  | nil => simp [printSeparated, Text.lacks]
  | cons entry entries induction =>
      cases entries with
      | nil => simp [printSeparated, withoutPercent]
      | cons next entries =>
          rw [printSeparated_cons, Text.lacks_append, Text.lacks_append, Bool.and_eq_true,
            Bool.and_eq_true, induction, @List.forall_mem_cons _ _ entry (next :: entries)]
          exact and_congr_left fun _ => and_iff_left rfl

theorem withoutPercent_list :
    (list entries).withoutPercent ↔ ∀ entry ∈ entries, entry.withoutPercent := by
  rw [← printSeparated_lacksPercent]
  simp [withoutPercent_iff, print, Text.lacks_iff]

theorem withoutPercent_group : (group inner).withoutPercent ↔ inner.withoutPercent := by
  simp [withoutPercent_iff, print]

theorem withoutPercent_binary :
    (binary operator left right).withoutPercent ↔
      operator ≠ .modulo ∧ left.withoutPercent ∧ right.withoutPercent := by
  simp only [withoutPercent_iff]
  cases operator <;> simp [print, Operator.symbol]

theorem withoutPercent_not : (Expression.not inner).withoutPercent ↔ inner.withoutPercent := by
  simp [withoutPercent_iff, print]

theorem withoutPercent_conditional :
    (conditional condition consequence alternative).withoutPercent ↔
      condition.withoutPercent ∧ consequence.withoutPercent ∧ alternative.withoutPercent := by
  simp [withoutPercent_iff, print]

theorem withoutPercent_call :
    (call function arguments).withoutPercent ↔
      function.withoutPercent ∧ ∀ argument ∈ arguments, argument.withoutPercent := by
  rw [← printSeparated_lacksPercent]
  simp [withoutPercent_iff, print, Text.lacks_iff]

theorem withoutPercent_lambda :
    (lambda parameters body).withoutPercent ↔
      (∀ name ∈ parameters, Text.lacks '%' name) ∧ body.withoutPercent := by
  rw [← parametersText_lacksPercent]
  simp [withoutPercent_iff, print, Text.lacks_iff]

theorem withoutPercent_mapping :
    (mapping left right).withoutPercent ↔ left.withoutPercent ∧ right.withoutPercent := by
  rcases lambda_or_plain right with ⟨parameters, body, rfl⟩ | plain
  · simp [withoutPercent_iff, print]
  · simp [withoutPercent_iff, print_mapping plain]

theorem withoutPercent_prefer : (prefer inner).withoutPercent ↔ inner.withoutPercent := by
  simp [withoutPercent_iff, print]

end

end Expression

/-! ## Lexemes -/

/-- No percent sign stands in any of the tokens. -/
def Lexemes.WithoutPercent (lexemes : List Lexeme) : Prop :=
  ∀ lexeme ∈ lexemes, '%' ∉ lexeme.token.characters

theorem textLiteral_lacksPercent {characters value : List Char} {length : Nat}
    (none : '%' ∉ characters) (ends : textLiteral characters = .ok (value, length)) :
    '%' ∉ value := by
  fun_induction textLiteral characters generalizing value length with
  | case1 | case3 => cases ends
  | case2 =>
      cases ends
      exact List.not_mem_nil
  | case4 character rest induction =>
      rcases ok_of_bind ends with ⟨⟨value', length'⟩, read, ends⟩
      cases ends
      simp only [List.mem_cons, not_or] at none ⊢
      refine ⟨?_, induction none.2.2 read⟩
      unfold unescape
      split <;> first | decide | exact none.2.1
  | case5 character rest _ _ _ induction =>
      rcases ok_of_bind ends with ⟨⟨value', length'⟩, read, ends⟩
      cases ends
      simp only [List.mem_cons, not_or] at none ⊢
      exact ⟨none.1, induction none.2 read⟩

theorem symbolToken?_lacksPercent {first : Char} {rest : List Char} {token : Token} {length : Nat}
    (other : first ≠ '%') (symbol : symbolToken? first rest = some (token, length)) :
    '%' ∉ token.characters := by
  unfold symbolToken? at symbol
  split at symbol
  case h_2 =>
    split at symbol
    · cases symbol
      decide
    · split at symbol <;> (cases symbol; decide)
  all_goals
    cases symbol
    try first | decide | exact absurd rfl other

theorem scanToken_lacksPercent {first : Char} {rest : List Char} {token : Token} {length : Nat}
    (none : '%' ∉ first :: rest) (ends : scanToken first rest = .ok (token, length)) :
    '%' ∉ token.characters := by
  unfold scanToken at ends
  split at ends
  · dsimp only at ends
    split at ends
    · rename_i value _
      cases ends
      exact Text.lacks_iff.mp (toString_lacksPercent value.toInt)
    · cases ends
  · split at ends
    · rcases ok_of_map ends with ⟨⟨value, length⟩, read, ends⟩
      cases ends
      have free := textLiteral_lacksPercent (fun member => none (List.mem_cons_of_mem _ member)) read
      simpa [Token.characters, mem_escapeCharacter] using free
    · split at ends
      · cases ends
        rw [Token.characters, String.toList_ofList, List.mem_cons, not_or]
        rw [List.mem_cons, not_or] at none
        exact ⟨none.1, fun member => none.2 (List.mem_of_mem_take member)⟩
      · split at ends
        · rename_i symbol
          cases ends
          refine symbolToken?_lacksPercent ?_ symbol
          rintro rfl
          exact none List.mem_cons_self
        · cases ends

theorem scanFrom_withoutPercent {characters : List Char} {position : Position} {spaced : Bool}
    {lexemes : List Lexeme} (none : '%' ∉ characters)
    (ends : scanFrom position spaced characters = .ok lexemes) : WithoutPercent lexemes := by
  induction count : characters.length using Nat.strongRecOn
    generalizing characters position spaced lexemes with
  | _ count induction =>
      subst count
      cases characters with
      | nil =>
          rw [scanFrom_nil] at ends
          cases ends
          exact List.forall_mem_singleton.mpr List.not_mem_nil
      | cons first rest =>
          have below : '%' ∉ rest := fun member => none (List.mem_cons_of_mem _ member)
          cases blank : Text.isBlank first with
          | true =>
              rw [scanFrom_blank blank] at ends
              exact induction rest.length (Nat.lt_succ_self _) below ends rfl
          | false =>
              cases scans : scanToken first rest with
              | error fault =>
                  rw [scanFrom.eq_def] at ends
                  simp [blank, scans] at ends
              | ok token =>
                  rw [scanFrom_token scans] at ends
                  rcases ok_of_map ends with ⟨others, found, rfl⟩
                  have shorter : (rest.drop token.2).length < (first :: rest).length := by
                    simp only [List.length_drop, List.length_cons]
                    omega
                  refine List.forall_mem_cons.mpr ⟨scanToken_lacksPercent none scans, ?_⟩
                  exact induction _ shorter (fun member => below (List.mem_of_mem_drop member))
                    found rfl

namespace Lexemes.WithoutPercent

variable {lexemes : List Lexeme}

theorem advance (free : WithoutPercent lexemes) : WithoutPercent (Lexemes.advance lexemes) := by
  match lexemes, free with
  | [], free | [_], free => exact free
  | _ :: _ :: _, free => exact (List.forall_mem_cons.mp free).2

theorem peek (free : WithoutPercent lexemes) : '%' ∉ (Lexemes.peek lexemes).characters := by
  cases lexemes with
  | nil => exact List.not_mem_nil
  | cons lexeme lexemes => exact free lexeme List.mem_cons_self

theorem identifier (free : WithoutPercent lexemes) {name : String}
    (word : Lexemes.peek lexemes = .identifier name) : Text.lacks '%' name := by
  have free := free.peek
  rw [word] at free
  exact Text.lacks_iff.mpr free

theorem text (free : WithoutPercent lexemes) {value : String}
    (literal : Lexemes.peek lexemes = .text value) : Text.lacks '%' value := by
  have free := free.peek
  rw [literal] at free
  simpa [Token.characters, mem_escapeCharacter, Text.lacks_iff] using free

theorem operator {level : Level} {operator : Operator} (free : WithoutPercent lexemes)
    (sign : level.operator? (Lexemes.peek lexemes) = some operator) : operator ≠ .modulo := by
  rintro rfl
  have free := free.peek
  rw [(Level.of_operator? sign).2.2 nofun] at free
  exact free (by decide)

theorem operand {operator : Operator} (free : WithoutPercent lexemes) :
    WithoutPercent (if operator = .concatenation then lexemes else Lexemes.advance lexemes) := by
  split
  · exact free
  · exact free.advance

theorem behindReplace (free : WithoutPercent lexemes) :
    WithoutPercent (Grammar.behindReplace lexemes) := by
  unfold Grammar.behindReplace
  split
  · exact free.advance
  · exact free

end Lexemes.WithoutPercent

/-! ## Paths and parameters -/

theorem indexStep_lacksPercent (index : Int64) : Text.lacks '%' (indexStep index) := by
  rw [indexStep, Text.lacks_append, Text.lacks_append, toString_lacksPercent]
  rfl

section
variable {lexemes rest : List Lexeme} {step : String}

theorem parseIndex_lacksPercent (free : WithoutPercent lexemes)
    (ends : parseIndex lexemes = .ok (step, rest)) : Text.lacks '%' step ∧ WithoutPercent rest := by
  unfold parseIndex at ends
  split at ends
  · rcases ok_of_bind ends with ⟨last, close, ends⟩
    rcases expect_eq_ok close with ⟨_, rfl⟩
    cases ends
    exact ⟨indexStep_lacksPercent _, free.advance.advance⟩
  · cases ends

theorem parseKey_lacksPercent {afterDot : Bool} (free : WithoutPercent lexemes)
    (ends : parseKey afterDot lexemes = .ok (step, rest)) :
    Text.lacks '%' step ∧ WithoutPercent rest := by
  unfold parseKey at ends
  split at ends
  · rename_i word
    cases ends
    exact ⟨free.identifier word, free.advance⟩
  · cases ends
    exact ⟨indexStep_lacksPercent _, free.advance⟩
  · exact parseIndex_lacksPercent free.advance ends
  · cases ends

theorem Grammar.Steps.lackPercent {steps : List String} (reads : Steps steps lexemes rest)
    (free : WithoutPercent lexemes) :
    (∀ step ∈ steps, Text.lacks '%' step) ∧ WithoutPercent rest := by
  induction reads with
  | key _ _ _ first _ induction =>
      have key := parseKey_lacksPercent free.advance first
      have others := induction key.2
      exact ⟨List.forall_mem_cons.mpr ⟨key.1, others.1⟩, others.2⟩
  | index _ _ first _ induction =>
      have index := parseIndex_lacksPercent free.advance first
      have others := induction index.2
      exact ⟨List.forall_mem_cons.mpr ⟨index.1, others.1⟩, others.2⟩
  | halt => exact ⟨nofun, free⟩

theorem Grammar.Path.lackPercent {path : List String} (reads : Path path lexemes rest)
    (free : WithoutPercent lexemes) :
    (∀ step ∈ path, Text.lacks '%' step) ∧ WithoutPercent rest := by
  cases reads with
  | path first others =>
      have key := parseKey_lacksPercent free first
      have steps := others.lackPercent key.2
      exact ⟨List.forall_mem_cons.mpr ⟨key.1, steps.1⟩, steps.2⟩

theorem Grammar.Parameters.lackPercent {names : List String} (reads : Parameters names lexemes rest)
    (free : WithoutPercent lexemes) :
    (∀ name ∈ names, Text.lacks '%' name) ∧ WithoutPercent rest := by
  induction reads with
  | last word =>
      exact ⟨List.forall_mem_singleton.mpr (free.identifier word), free.advance.advance⟩
  | more word _ _ induction =>
      have others := induction free.advance.advance
      exact ⟨List.forall_mem_cons.mpr ⟨free.identifier word, others.1⟩, others.2⟩

end

/-! ## What is read -/

namespace Grammar

/-- A phrase that goes on with a part that was read before does not bring in a percent sign. -/
def Phrase.WithoutPercent : Phrase → Prop
  | .chainRest _ before read | .calls before read => before.withoutPercent → read.withoutPercent
  | .separated _ read | .entries _ read => ∀ entry ∈ read, entry.withoutPercent
  | .expression read | .conditional read | .chain _ read | .operand _ read | .unary read
  | .primary read | .lambda read | .mapping read | .mapped read => read.withoutPercent

open Expression in
theorem Reads.withoutPercent {place : List String} {phrase : Phrase} {lexemes rest : List Lexeme}
    (reads : Reads place phrase lexemes rest) (free : WithoutPercent lexemes) :
    phrase.WithoutPercent ∧ WithoutPercent rest := by
  induction reads with
  | preferred _ _ inner =>
      have inner := inner free.advance
      exact ⟨withoutPercent_prefer.mpr inner.1, inner.2⟩
  | expression _ _ inner | unconditional _ _ inner | tighter _ _ inner | tightest _ _ inner
  | something _ _ inner | full _ _ inner => exact inner free
  | conditional _ _ _ _ _ first second third =>
      have first := first free
      have second := second first.2.advance
      have third := third second.2.advance
      exact ⟨withoutPercent_conditional.mpr ⟨first.1, second.1, third.1⟩, third.2⟩
  | chain _ _ first others =>
      have first := first free
      have others := others first.2
      exact ⟨others.1 first.1, others.2⟩
  | chainOver _ | callsOver _ => exact ⟨id, free⟩
  | chainMore sign _ _ next others =>
      have next := next free.operand
      have others := others next.2
      refine ⟨fun left => others.1 (withoutPercent_binary.mpr ?_), others.2⟩
      exact ⟨free.operator sign, left, next.1⟩
  | not _ _ operand =>
      have operand := operand free.advance
      exact ⟨withoutPercent_not.mpr operand.1, operand.2⟩
  | negative => exact ⟨integer_withoutPercent _, free.advance.advance⟩
  | minus _ _ _ operand =>
      have operand := operand free.advance
      refine ⟨withoutPercent_binary.mpr ?_, operand.2⟩
      exact ⟨nofun, integer_withoutPercent _, operand.1⟩
  | applied _ _ _ _ first others =>
      have first := first free
      have others := others first.2
      exact ⟨others.1 first.1, others.2⟩
  | called _ _ _ _ inside others =>
      have inside := inside free.advance
      have others := others inside.2
      exact ⟨fun function => others.1 (withoutPercent_call.mpr ⟨function, inside.1⟩), others.2⟩
  | nothing => exact ⟨nofun, free.advance⟩
  | last _ _ entry =>
      have entry := entry free
      exact ⟨List.forall_mem_singleton.mpr entry.1, entry.2.advance⟩
  | more _ _ _ first others =>
      have first := first free
      have others := others first.2.advance
      exact ⟨List.forall_mem_cons.mpr ⟨first.1, others.1⟩, others.2⟩
  | integer => exact ⟨integer_withoutPercent _, free.advance⟩
  | text literal => exact ⟨withoutPercent_text.mpr (free.text literal), free.advance⟩
  | group _ _ _ inner =>
      have inner := inner free.advance
      exact ⟨withoutPercent_group.mpr inner.1, inner.2.advance⟩
  | list _ _ inside =>
      have inside := inside free.advance
      exact ⟨withoutPercent_list.mpr inside.1, inside.2⟩
  | root _ _ steps =>
      have steps := steps.lackPercent free.advance
      exact ⟨withoutPercent_reference.mpr (List.forall_mem_cons.mpr ⟨rfl, steps.1⟩), steps.2⟩
  | nil | yes | no => exact ⟨rfl, free.advance⟩
  | auto => exact ⟨auto_withoutPercent _, free.advance⟩
  | redirected _ _ steps =>
      have steps := steps.lackPercent free.advance.behindReplace
      exact ⟨withoutPercent_redirected.mpr steps.1, steps.2⟩
  | merge => exact ⟨merge_withoutPercent _ _, free.advance.behindReplace⟩
  | lambda _ _ inner => exact inner free.advance
  | mapping _ _ inner => exact inner free.advance.advance
  | reference _ _ _ _ steps =>
      have steps := steps.lackPercent free
      exact ⟨withoutPercent_reference.mpr steps.1, steps.2⟩
  | bare _ _ _ body =>
      have body := body free.advance.advance
      exact ⟨withoutPercent_lambda.mpr ⟨nofun, body.1⟩, body.2⟩
  | named _ names _ _ body =>
      have names := names.lackPercent free.advance
      have body := body names.2.advance
      exact ⟨withoutPercent_lambda.mpr ⟨names.1, body.1⟩, body.2⟩
  | mappingOf _ _ _ _ first second =>
      have first := first free
      have second := second first.2.advance
      exact ⟨withoutPercent_mapping.mpr ⟨first.1, second.1⟩, second.2.advance⟩
  | short names _ _ body =>
      have names := names.lackPercent free
      have body := body names.2.advance
      exact ⟨withoutPercent_lambda.mpr ⟨names.1, body.1⟩, body.2⟩

end Grammar

theorem Expression.parse_withoutPercent {source : String} {place : List String} {read : Expression}
    (free : Text.lacks '%' source) (parses : parse source place = .ok read) :
    read.withoutPercent := by
  rcases parse_eq_ok_iff.mp parses with ⟨lexemes, scans, rest, reads, _⟩
  exact (reads.withoutPercent (scanFrom_withoutPercent (Text.lacks_iff.mp free) scans)).1

end Stencil
