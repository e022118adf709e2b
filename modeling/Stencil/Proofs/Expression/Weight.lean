import Stencil.Proofs.Expression.Shape

namespace Stencil

open Lexemes Lexeme Grammar

/-! A measure that tells abbreviations from what they are printed as. The printed form of a
negation has one number more than the source, and that of a mapping with a lambda one bar less.
So the source of an expression weighs no more than the printed form, and less when an
abbreviation is lost. -/

/-- Numbers weigh for the printed form, bars for the source. -/
def Token.weight : Token → Int
  | .integer _ => 1
  | .pipe => -1
  | _ => 0

def Lexemes.weight (lexemes : List Lexeme) : Int :=
  (lexemes.map fun lexeme => lexeme.token.weight).sum

@[simp]
theorem Lexemes.weight_nil : weight [] = 0 := rfl

@[simp]
theorem Lexemes.weight_cons (lexeme : Lexeme) (rest : List Lexeme) :
    weight (lexeme :: rest) = lexeme.token.weight + weight rest := rfl

@[simp]
theorem Lexemes.weight_append (first second : List Lexeme) :
    weight (first ++ second) = weight first + weight second := by
  simp [weight]

@[simp]
theorem Lexeme.token_sign (token : Token) (spaced : Bool) : (sign token spaced).token = token := rfl

variable {place : List String} {lexemes middle rest start : List Lexeme}

theorem Lexemes.weight_advance (ended : Ended lexemes) {token : Token}
    (found : peek lexemes = token) (goes : token ≠ .finish) :
    weight lexemes = token.weight + weight (advance lexemes) := by
  subst found
  match lexemes, ended with
  | [_], ended => exact absurd ended goes
  | _ :: _ :: _, _ => rfl

theorem Alike.weight {lexemes' : List Lexeme} (alike : Alike lexemes lexemes') :
    weight lexemes = weight lexemes' := by
  induction alike with
  | nil => rfl
  | cons same _ induction => rw [weight_cons, weight_cons, same.1, induction]

/-! ## The weight of the printed form -/

namespace Written

theorem weight_step (spaced : Bool) (key : String) :
    weight (step spaced key) = weight (step false key) := by
  unfold step
  split <;> rfl

theorem weight_keys (spaced : Bool) (path : List String) :
    weight (keys spaced path) = weight (keys false path) := by
  cases path with
  | nil => rfl
  | cons key path => rw [keys, keys, weight_append, weight_append, weight_step]

theorem weight_path (spaced : Bool) (keys : List String) :
    weight (path spaced keys) = weight (path false keys) := by
  unfold path
  split
  · rfl
  · exact weight_keys spaced keys

theorem weight_integer (spaced : Bool) (value : Int64) : weight (integer spaced value) = 1 := by
  unfold integer
  split <;> rfl

theorem weight_operator (operator : Operator) : weight (Written.operator operator) = 0 := by
  cases operator <;> rfl

theorem weight_names (parameters : List String) : weight (names parameters) = 0 := by
  fun_induction names parameters with
  | case1 => rfl
  | case2 name => rfl
  | case3 name others more induction => simp [Token.weight, induction]

/-- A list of parameters has two bars, unless they are one token. -/
theorem weight_bars (spaced : Bool) {parameters : List String} (named : parameters ≠ []) :
    weight (bars spaced parameters) = 2 * Token.pipe.weight := by
  simp [bars, named, weight_names, Token.weight]

theorem weight_bars_spaced (spaced : Bool) (parameters : List String) :
    weight (bars spaced parameters) = weight (bars false parameters) := by
  unfold bars
  split <;> rfl

end Written

namespace Expression

/-- The weight of the printed form. -/
def weight (expression : Expression) : Int :=
  Lexemes.weight (expression.written false)

def separatedWeight (entries : List Expression) : Int :=
  Lexemes.weight (writtenSeparated false entries)

/-- The weight of a function as it is printed in a mapping behind the bar. A lambda brings its
own bar. -/
def mappedWeight (function : Expression) : Int :=
  match function with
  | .lambda _ _ => function.weight - Token.pipe.weight
  | _ => function.weight

theorem mappedWeight_plain {function : Expression}
    (plain : ∀ parameters body, function ≠ .lambda parameters body) :
    mappedWeight function = function.weight := by
  unfold mappedWeight
  split
  · exact absurd rfl (plain _ _)
  · rfl

/-- White space weighs nothing. -/
theorem weight_written (spaced : Bool) : ∀ expression : Expression,
    Lexemes.weight (expression.written spaced) = expression.weight
  | .integer value => (Written.weight_integer spaced value).trans
      (Written.weight_integer false value).symm
  | .reference path => Written.weight_path spaced path
  | .binary operator left right => by
      simp only [weight, written, weight_append, weight_written spaced left]
  | .conditional condition consequence alternative => by
      simp only [weight, written, weight_append, weight_written spaced condition]
  | .call function arguments => by
      simp only [weight, written, weight_append, weight_written spaced function]
  | .mapping collection function => by
      cases function <;> rfl
  | .nil | .boolean _ | .text _ | .list _ | .merge _ _ _ | .auto _ | .group _ | .not _
  | .lambda _ _ | .prefer _ => rfl

theorem weight_integer (value : Int64) : (integer value).weight = 1 :=
  Written.weight_integer false value

theorem weight_binary (operator : Operator) (left right : Expression) :
    (binary operator left right).weight = left.weight + right.weight := by
  rw [weight, written, weight_append, weight_append, Written.weight_operator, weight_written,
    weight_written, Int.zero_add]

theorem weight_not (operand : Expression) : (not operand).weight = operand.weight := by
  rw [weight, written, weight_cons, weight_written]
  exact Int.zero_add _

theorem weight_group (inner : Expression) : (group inner).weight = inner.weight := by
  simp [weight, written, Token.weight]

theorem weight_prefer (inner : Expression) : (prefer inner).weight = inner.weight := by
  rw [weight, written, weight_cons, weight_written]
  exact Int.zero_add _

theorem weight_conditional (condition consequence alternative : Expression) :
    (conditional condition consequence alternative).weight =
      condition.weight + consequence.weight + alternative.weight := by
  rw [weight, written, weight_append, weight_cons, weight_append, weight_cons, weight_written,
    weight_written, weight_written]
  simp [Token.weight, Int.add_assoc]

theorem weight_list (entries : List Expression) :
    (list entries).weight = separatedWeight entries := by
  simp [weight, separatedWeight, written, Token.weight]

theorem weight_call (function : Expression) (arguments : List Expression) :
    (call function arguments).weight = function.weight + separatedWeight arguments := by
  simp [weight, separatedWeight, written, Token.weight]

theorem weight_lambda (parameters : List String) (body : Expression) :
    (lambda parameters body).weight =
      Lexemes.weight (Written.bars true parameters) + body.weight := by
  simp [weight, written, Token.weight]

theorem weight_writtenSeparated (spaced : Bool) (entries : List Expression) :
    Lexemes.weight (writtenSeparated spaced entries) = separatedWeight entries := by
  match entries with
  | [] => rfl
  | [entry] => exact (weight_written spaced entry).trans (weight_written false entry).symm
  | entry :: next :: entries =>
      rw [separatedWeight, writtenSeparated_cons, writtenSeparated_cons, weight_append,
        weight_append, weight_written, weight_written]

theorem separatedWeight_cons (entry : Expression) (entries : List Expression) :
    separatedWeight (entry :: entries) = entry.weight + separatedWeight entries := by
  cases entries with
  | nil => exact (Int.add_zero _).symm
  | cons next entries =>
      rw [separatedWeight, writtenSeparated_cons, weight_append, weight_cons,
        weight_writtenSeparated, weight_written]
      simp [Token.weight]

theorem weight_mapping (collection function : Expression) :
    (mapping collection function).weight =
      collection.weight + Token.pipe.weight + mappedWeight function := by
  rcases lambda_or_plain function with ⟨parameters, body, rfl⟩ | plain
  · simp [mappedWeight, weight, written, Written.weight_bars_spaced true, Token.weight]
    omega
  · rw [mappedWeight_plain plain, weight, written_mapping plain]
    simp [weight, Token.weight]
    omega

end Expression

/-! ## The weight of what is read -/

theorem parseIndex_weight {step : String} (scanned : Scanned lexemes)
    (ends : parseIndex lexemes = .ok (step, rest)) :
    weight lexemes = weight (Written.step false step) + weight rest := by
  unfold parseIndex at ends
  split at ends
  · rename_i index number
    rcases ok_of_bind ends with ⟨last, close, ends⟩
    rcases expect_eq_ok close with ⟨found, rfl⟩
    cases ends
    rw [weight_advance scanned.ended number (by simp),
      weight_advance scanned.advance.ended found (by simp),
      Written.step_of_index (scanned.integer number)]
    simp [Token.weight]
  · cases ends

theorem parseKey_weight {afterDot : Bool} {step : String} (scanned : Scanned lexemes)
    (ends : parseKey afterDot lexemes = .ok (step, rest)) :
    weight lexemes = weight (Written.step false step) + weight rest := by
  unfold parseKey at ends
  split at ends
  · rename_i word
    cases ends
    rw [weight_advance scanned.ended word (by simp), Written.step_of_name (scanned.name word)]
    rfl
  · rename_i number
    cases ends
    rw [weight_advance scanned.ended number (by simp),
      Written.step_of_index (scanned.integer number)]
    rfl
  · rename_i bracket
    rw [weight_advance scanned.ended bracket (by simp), parseIndex_weight scanned.advance ends]
    exact Int.zero_add _
  · cases ends

theorem Grammar.Steps.weight {steps : List String} (reads : Steps steps lexemes rest)
    (scanned : Scanned lexemes) :
    weight lexemes = Lexemes.weight (Written.steps steps) + Lexemes.weight rest := by
  induction reads with
  | key _ dot _ first _ induction =>
      have key := parseKey_legible scanned.advance first
      rw [weight_advance scanned.ended dot (by simp), parseKey_weight scanned.advance first,
        induction key.2, Written.steps_cons, weight_cons, weight_append, token_sign]
      omega
  | index _ bracket first _ induction =>
      have index := parseIndex_legible scanned.advance first
      rw [weight_advance scanned.ended bracket (by simp), parseIndex_weight scanned.advance first,
        induction index.2, Written.steps_cons, weight_cons, weight_append, token_sign]
      simp only [Token.weight]
      omega
  | halt => exact (Int.zero_add _).symm

theorem Grammar.Path.weight {path : List String} (reads : Path path lexemes rest)
    (scanned : Scanned lexemes) :
    weight lexemes = Lexemes.weight (Written.keys false path) + Lexemes.weight rest := by
  cases reads with
  | path first others =>
      have key := parseKey_legible scanned first
      rw [parseKey_weight scanned first, others.weight key.2, Written.keys, weight_append,
        Int.add_assoc]

theorem Grammar.Parameters.weight {names : List String} (reads : Parameters names lexemes rest)
    (scanned : Scanned lexemes) :
    weight lexemes = Token.pipe.weight + Lexemes.weight rest := by
  induction reads with
  | last word bar =>
      rw [weight_advance scanned.ended word (by simp),
        weight_advance scanned.advance.ended bar (by simp)]
      exact Int.zero_add _
  | more word comma _ induction =>
      rw [weight_advance scanned.ended word (by simp),
        weight_advance scanned.advance.ended comma (by simp), induction scanned.advance.advance]
      simp [Token.weight]

theorem behindReplace_weight (scanned : Scanned lexemes) :
    weight (behindReplace lexemes) = weight lexemes := by
  unfold behindReplace
  split
  · rename_i word
    rw [weight_advance scanned.ended word (by simp)]
    exact (Int.zero_add _).symm
  · rfl

/-- What is read weighs no more than what is printed for it, and less unless this is kept. -/
structure Lighter (lexemes rest : List Lexeme) (printed : Int) (kept : Prop) : Prop where
  within : weight lexemes ≤ printed + weight rest
  kept : printed + weight rest ≤ weight lexemes → kept

namespace Lighter

variable {printed printed' : Int} {kept kept' : Prop}

theorem imp (lighter : Lighter lexemes rest printed kept) (implies : kept → kept') :
    Lighter lexemes rest printed kept' :=
  ⟨lighter.within, fun same => implies (lighter.kept same)⟩

theorem trans (first : Lighter lexemes middle printed kept)
    (second : Lighter middle rest printed' kept') :
    Lighter lexemes rest (printed + printed') (kept ∧ kept') := by
  have within := first.within
  have within' := second.within
  exact ⟨by omega, fun same => ⟨first.kept (by omega), second.kept (by omega)⟩⟩

theorem cast (lighter : Lighter lexemes rest printed kept) (same : printed = printed') :
    Lighter lexemes rest printed' kept :=
  same ▸ lighter

/-- A token before it that weighs nothing. -/
theorem behind {token : Token} (scanned : Scanned lexemes) (found : peek lexemes = token)
    (goes : token ≠ .finish) (light : token.weight = 0)
    (lighter : Lighter (advance lexemes) rest printed kept) :
    Lighter lexemes rest printed kept := by
  have within := lighter.within
  have same := weight_advance scanned.ended found goes
  exact ⟨by omega, fun enough => lighter.kept (by omega)⟩

/-- A token behind it that weighs nothing. -/
theorem before {token : Token} (scanned : Scanned rest) (found : peek rest = token)
    (goes : token ≠ .finish) (light : token.weight = 0)
    (lighter : Lighter lexemes rest printed kept) :
    Lighter lexemes (advance rest) printed kept := by
  have within := lighter.within
  have same := weight_advance scanned.ended found goes
  exact ⟨by omega, fun enough => lighter.kept (by omega)⟩

/-- What weighs the same as its printed form. -/
theorem of_weight (same : weight lexemes = printed + weight rest) (holds : kept) :
    Lighter lexemes rest printed kept :=
  ⟨Int.le_of_eq same, fun _ => holds⟩

theorem refl (holds : kept) : Lighter lexemes lexemes 0 kept :=
  .of_weight (Int.zero_add _).symm holds

end Lighter

/-! ## The grammar -/

open Expression

/-- How each phrase keeps the abbreviations in it. -/
def Grammar.Phrase.IsLighter (lexemes rest : List Lexeme) : Phrase → Prop
  | .expression read | .conditional read => Lighter lexemes rest read.weight read.IsFaithful
  | .chain level read =>
      Lighter lexemes rest read.weight
        (read.IsFaithful ∧ (level = .multiplicative → read.isNegation = false))
  | .chainRest level left read =>
      ∀ start, Lighter start lexemes left.weight
          (left.IsFaithful ∧ (level = .multiplicative → left.isNegation = false)) →
        Lighter start rest read.weight
          (read.IsFaithful ∧ (level = .multiplicative → read.isNegation = false))
  | .operand level read =>
      Lighter lexemes rest read.weight (read.IsFaithful ∧
        (level = .multiplicative ∨ level = .additive → read.isNegation = false))
  | .unary read =>
      Lighter lexemes rest read.weight (read.IsFaithful ∧ read.isNegation = false)
  | .calls function read =>
      ∀ start, Lighter start lexemes function.weight
          (function.IsFaithful ∧ function.isNegation = false) →
        Lighter start rest read.weight (read.IsFaithful ∧ read.isNegation = false)
  | .separated _ read | .entries _ read =>
      Lighter lexemes rest (separatedWeight read) (AllFaithful read)
  | .primary read =>
      Lighter lexemes rest read.weight (read.IsFaithful ∧ read.isNegation = false)
  | .lambda read | .mapping read =>
      Lighter lexemes rest read.weight (read.IsFaithful ∧ read.isNegation = false)
  | .mapped read =>
      Lighter lexemes rest (mappedWeight read)
        (read.IsFaithful ∧ ∀ body, read ≠ .lambda [] body)

theorem Operator.weight_token {operator : Operator} (sign : operator ≠ .concatenation) :
    operator.token ≠ .finish ∧ operator.token.weight = 0 := by
  cases operator <;> first | exact absurd rfl sign | exact ⟨by simp [token], rfl⟩

theorem lighter_binary {level : Level} {operator : Operator} {left right : Expression}
    (scanned : Scanned lexemes) (sign : level.operator? (peek lexemes) = some operator)
    (first : Lighter start lexemes left.weight
      (left.IsFaithful ∧ (level = .multiplicative → left.isNegation = false)))
    (second : Lighter (if operator = .concatenation then lexemes else advance lexemes) rest
      right.weight (right.IsFaithful ∧
        (level = .multiplicative ∨ level = .additive → right.isNegation = false))) :
    Lighter start rest (Expression.binary operator left right).weight
      ((Expression.binary operator left right).IsFaithful ∧
        (level = .multiplicative → (Expression.binary operator left right).isNegation = false)) := by
  rcases Level.of_operator? sign with ⟨rfl, operand, mark⟩
  have behind : Lighter lexemes rest right.weight (right.IsFaithful ∧
      (operator.level = .multiplicative ∨ operator.level = .additive →
        right.isNegation = false)) := by
    split at second
    · exact second
    · rename_i other
      have light := Operator.weight_token other
      exact .behind scanned (mark other) light.1 light.2 second
  rw [weight_binary]
  refine (first.trans behind).imp ?_
  rintro ⟨⟨left, plain⟩, right, plain'⟩
  refine ⟨⟨left, right, ?_, ?_⟩, ?_⟩
  · intro negation level
    rw [plain level] at negation
    cases negation
  · intro negation
    constructor
    · intro level
      rw [plain' (.inl level)] at negation
      cases negation
    · intro level
      rw [plain' (.inr level)] at negation
      cases negation
  · intro level
    cases operator <;> first | rfl | cases level

theorem Grammar.Reads.lighter {phrase : Phrase} (reads : Reads place phrase lexemes rest)
    (scanned : Scanned lexemes) : phrase.IsLighter lexemes rest := by
  induction reads with
  | preferred starts _ inner =>
      exact .cast (.behind scanned starts.1 (by simp) rfl (inner scanned.advance))
        (weight_prefer _).symm
  | expression _ _ inner => exact inner scanned
  | conditional one question two colon _ first second third =>
      have middle := (one.shaped scanned).1.scanned
      have behind := (two.shaped middle.advance).1.scanned
      have sign := (first scanned).before middle question (by simp) rfl
      have other := (second middle.advance).before behind colon (by simp) rfl
      have all := (sign.trans other).trans (third behind.advance)
      refine (all.imp ?_).cast (weight_conditional _ _ _).symm
      rintro ⟨⟨condition, consequence⟩, alternative⟩
      exact ⟨condition.1, consequence, alternative⟩
  | unconditional _ _ inner => exact (inner scanned).imp And.left
  | chain one _ first others =>
      refine others (one.shaped scanned).1.scanned _ ((first scanned).imp ?_)
      exact fun kept => ⟨kept.1, fun level => kept.2 (.inl level)⟩
  | chainOver => exact fun start lighter => lighter
  | chainMore sign next _ second others =>
      intro start first
      have behind := (next.shaped scanned.operand).1.scanned
      exact others behind start (lighter_binary scanned sign first (second scanned.operand))
  | @tighter _ _ level tighter _ below _ inner =>
      refine (inner scanned).imp fun kept => ⟨kept.1, ?_⟩
      rintro (rfl | rfl) <;> cases below
      exact kept.2 rfl
  | tightest _ _ inner => exact (inner scanned).imp fun kept => ⟨kept.1, fun _ => kept.2⟩
  | not bang _ inner =>
      have operand := (inner scanned.advance).behind scanned bang (by simp) rfl
      exact (operand.imp fun kept => ⟨kept, rfl⟩).cast (weight_not _).symm
  | negative minus number _ =>
      have within : Lighter _ _ (Token.integer _).weight True :=
        .of_weight (weight_advance scanned.advance.ended number (by simp)) trivial
      exact ((within.behind scanned minus (by simp) rfl).imp fun _ => ⟨trivial, rfl⟩).cast
        (weight_integer _).symm
  | @minus _ _ operand minus _ _ inner =>
      have within := ((inner scanned.advance).behind scanned minus (by simp) rfl).within
      have same := weight_binary .subtract (.integer 0) operand
      rw [weight_integer] at same
      exact ⟨by omega, fun enough => by omega⟩
  | applied _ _ one _ first others =>
      exact others (one.shaped scanned).1.scanned _ (first scanned)
  | called parenthesis _ one _ inside others =>
      intro start function
      have behind := (one.shaped scanned.advance).1
      have arguments := (inside scanned.advance).behind scanned parenthesis (by simp) rfl
      refine others behind start ((function.trans arguments).imp ?_ |>.cast (weight_call _ _).symm)
      exact fun kept => ⟨⟨kept.1.1, kept.2⟩, rfl⟩
  | callsOver => exact fun start lighter => lighter
  | @nothing _ enclosure close =>
      refine .before scanned close enclosure.close_ne_finish ?_ (.refl trivial)
      cases enclosure <;> rfl
  | something _ _ inner => exact inner scanned
  | @last _ _ enclosure entry one close inner =>
      have light : enclosure.close.weight = 0 := by cases enclosure <;> rfl
      have behind := (one.shaped scanned).1.scanned
      refine (((inner scanned).before behind close enclosure.close_ne_finish light).imp ?_).cast ?_
      · exact fun kept => ⟨kept, trivial⟩
      · exact ((separatedWeight_cons entry []).trans (Int.add_zero _)).symm
  | more one comma _ first others =>
      have behind := (one.shaped scanned).1.scanned
      have entry := (first scanned).before behind comma (by simp) rfl
      exact (entry.trans (others behind.advance)).cast (separatedWeight_cons _ _).symm
  | integer number =>
      have weighed := weight_advance scanned.ended number (by simp)
      exact (Lighter.of_weight weighed ⟨trivial, rfl⟩).cast
        (weight_integer _).symm
  | text literal => exact .before scanned literal (by simp) rfl (.refl ⟨trivial, rfl⟩)
  | group parenthesis one close inner =>
      have inside := (inner scanned.advance).behind scanned parenthesis (by simp) rfl
      have behind := (one.shaped scanned.advance).1.scanned
      exact ((inside.before behind close (by simp) rfl).imp fun kept => ⟨kept, rfl⟩).cast
        (weight_group _).symm
  | list bracket _ inside =>
      have entries := (inside scanned.advance).behind scanned bracket (by simp) rfl
      exact (entries.imp fun kept => ⟨kept, rfl⟩).cast (weight_list _).symm
  | root dot _ steps =>
      refine .of_weight ?_ ⟨trivial, rfl⟩
      rw [weight_advance scanned.ended dot (by simp), steps.weight scanned.advance,
        Expression.weight, written, Written.path, weight_cons, token_sign, Int.add_assoc]
  | nil word | yes word | no word | auto word =>
      exact .before scanned word (by simp) rfl (.refl ⟨trivial, rfl⟩)
  | @redirected lexemes rest path name word key steps =>
      refine .of_weight ?_ ⟨trivial, rfl⟩
      have behind := behindReplace_scanned scanned.advance
      have named := behind.name key
      rcases steps.of_word key with ⟨keys, rfl, _⟩
      rw [weight_advance scanned.ended word (by simp), ← behindReplace_weight scanned.advance,
        steps.weight behind, Expression.weight, written, weight_cons, weight_append, token_sign,
        if_pos rfl, Written.weight_path, Written.path_of_key named]
      split <;> simp [Token.weight]
  | merge word key =>
      refine .of_weight ?_ ⟨trivial, rfl⟩
      rw [weight_advance scanned.ended word (by simp), ← behindReplace_weight scanned.advance,
        Expression.weight, written]
      split <;> simp [Token.weight]
  | lambda starts _ inner => exact .behind scanned starts.1 (by simp) rfl (inner scanned.advance)
  | mapping starts _ inner =>
      exact .behind scanned starts.1 (by simp) rfl
        (.behind scanned.advance starts.2.1 (by simp) rfl (inner scanned.advance.advance))
  | reference word free lambda mapping steps =>
      refine .of_weight ?_ ⟨trivial, rfl⟩
      have named := scanned.name word
      rcases steps.of_word word with ⟨keys, rfl, _⟩
      rw [steps.weight scanned, Expression.weight, written, Written.path_of_key named]
  | @bare _ _ body bars arrow _ inner =>
      have inside := (inner scanned.advance.advance).behind scanned.advance arrow (by simp) rfl
      have light : weight (Written.bars true []) = 0 := rfl
      have same := weight_lambda [] body
      rw [light, Int.zero_add] at same
      have whole := inside.behind scanned bars (by simp) rfl
      exact (whole.imp fun kept => ⟨kept, rfl⟩).cast same.symm
  | @named _ _ _ parameters body bar names arrow _ inner =>
      rcases names.legible scanned.advance with ⟨_, some, behind⟩
      have inside := (inner behind.advance).behind behind arrow (by simp) rfl
      have head := weight_advance scanned.ended bar (by simp)
      have list := names.weight scanned.advance
      have same := weight_lambda parameters body
      rw [Written.weight_bars true some] at same
      have within := inside.within
      exact ⟨by omega, fun enough => ⟨inside.kept (by omega), rfl⟩⟩
  | mappingOf one bar two close first second =>
      have middle := (one.shaped scanned).1.scanned
      have behind := (two.shaped middle.advance).1.scanned
      have sign : Lighter _ _ Token.pipe.weight True :=
        .of_weight (weight_advance middle.ended bar (by simp)) trivial
      have function := (second middle.advance).before behind close (by simp) rfl
      refine ((((first scanned).trans sign).trans function).imp ?_).cast (weight_mapping _ _).symm
      rintro ⟨⟨collection, _⟩, function⟩
      exact ⟨⟨collection, function⟩, rfl⟩
  | @short _ _ _ parameters body names arrow _ inner =>
      rcases names.legible scanned with ⟨_, some, behind⟩
      have inside := (inner behind.advance).behind behind arrow (by simp) rfl
      have list := names.weight scanned
      have same := weight_lambda parameters body
      rw [Written.weight_bars true some] at same
      have within := inside.within
      have mapped : mappedWeight (.lambda parameters body) = _ - _ := rfl
      refine ⟨by omega, fun enough => ⟨inside.kept (by omega), ?_⟩⟩
      rintro _ ⟨⟩
      exact some rfl
  | @full _ _ read _ _ inner =>
      have lighter := inner scanned
      rcases lambda_or_plain read with ⟨parameters, body, rfl⟩ | plain
      · have within := lighter.within
        have mapped : mappedWeight (.lambda parameters body) = _ - -1 := rfl
        exact ⟨by omega, fun enough => by omega⟩
      · exact (lighter.imp fun kept => ⟨kept, fun body => plain [] body⟩).cast
          (mappedWeight_plain plain).symm

end Stencil
