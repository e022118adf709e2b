import Stencil.Node.Lookup
import Stencil.Proofs.Expression.Scanning

namespace Stencil

open Lexemes

/-! The written form of an expression, token by token. Its text is the printed one, and the
scanner finds the tokens in it again. -/

/-- A lexeme of a written form. -/
def Lexeme.sign (token : Token) (spaced : Bool) : Lexeme := ⟨token, .start, spaced⟩

open Lexeme

/-! ## Paths -/

namespace Written

/-- A step of a path: a name, or an index with its brackets. -/
def step (spaced : Bool) (step : String) : List Lexeme :=
  match indexOf? step with
  | some index =>
      [sign .leftBracket spaced, sign (.integer (.ofInt index)) false, sign .rightBracket false]
  | none => [sign (.identifier step) spaced]

def steps (path : List String) : List Lexeme :=
  path.flatMap fun key => sign .dot false :: step false key

theorem steps_cons (key : String) (path : List String) :
    steps (key :: path) = sign .dot false :: (step false key ++ steps path) := rfl

def keys (spaced : Bool) : List String → List Lexeme
  | [] => []
  | key :: path => step spaced key ++ steps path

/-- A path from the root starts with a dot. -/
def path (spaced : Bool) : List String → List Lexeme
  | "" :: path => sign .dot spaced :: keys false path
  | path => keys spaced path

def integer (spaced : Bool) (value : Int64) : List Lexeme :=
  if value.toInt < 0 then [sign .minus spaced, sign (.integer (-value)) false]
  else [sign (.integer value) spaced]

def names : List String → List Lexeme
  | [] => []
  | [name] => [sign (.identifier name) false]
  | name :: others => sign (.identifier name) false :: sign .comma false :: names others

theorem names_cons (name : String) (others : List String) :
    ∃ rest, names (name :: others) = sign (.identifier name) false :: rest := by
  cases others <;> exact ⟨_, rfl⟩

/-- A parameter list between its bars; two bars in a row are one token. -/
def bars (spaced : Bool) (parameters : List String) : List Lexeme :=
  if parameters = [] then [sign .fallback spaced]
  else sign .pipe spaced :: (names parameters ++ [sign .pipe false])

theorem bars_starts (parameters : List String) :
    ∃ token rest, (token = .fallback ∨ token = .pipe) ∧
      ∀ spaced, bars spaced parameters = sign token spaced :: rest := by
  cases parameters with
  | nil => exact ⟨_, _, .inl rfl, fun _ => rfl⟩
  | cons name others => exact ⟨_, _, .inr rfl, fun _ => rfl⟩

end Written

/-- The token of an operator that has one. -/
def Operator.token : Operator → Token
  | .add => .plus
  | .subtract => .minus
  | .multiply => .star
  | .divide => .slash
  | .modulo => .percent
  | .equal => .equal
  | .notEqual => .notEqual
  | .less => .less
  | .lessOrEqual => .lessOrEqual
  | .greater => .greater
  | .greaterOrEqual => .greaterOrEqual
  | .and => .and
  | .or => .or
  | .fallback => .fallback
  | .concatenation => .finish

/-- The sign of an operator: nothing for a concatenation. -/
def Written.operator (operator : Operator) : List Lexeme :=
  if operator = .concatenation then [] else [sign operator.token true]

namespace Expression

mutual
def written (spaced : Bool) : Expression → List Lexeme
  | .nil => [sign (.identifier "nil") spaced]
  | .boolean value => [sign (.identifier (if value then "true" else "false")) spaced]
  | .integer value => Written.integer spaced value
  | .text value => [sign (.text value) spaced]
  | .list entries =>
      sign .leftBracket spaced :: (writtenSeparated false entries ++ [sign .rightBracket false])
  | .reference path => Written.path spaced path
  | .merge path redirected replacing =>
      sign (.identifier "merge") spaced ::
        ((if replacing then [sign (.identifier "replace") true] else []) ++
          if redirected then Written.path true path else [])
  | .auto _ => [sign (.identifier "auto") spaced]
  | .group inner =>
      sign .leftParenthesis spaced :: (inner.written false ++ [sign .rightParenthesis false])
  | .binary operator left right =>
      left.written spaced ++ (Written.operator operator ++ right.written true)
  | .not operand => sign .bang spaced :: operand.written false
  | .conditional condition consequence alternative =>
      condition.written spaced ++ (sign .question true :: (consequence.written true ++
        (sign .colon true :: alternative.written true)))
  | .call function arguments =>
      function.written spaced ++ (sign .leftParenthesis false ::
        (writtenSeparated false arguments ++ [sign .rightParenthesis false]))
  | .lambda parameters body =>
      sign (.identifier "lambda") spaced ::
        (Written.bars true parameters ++ (sign .arrow false :: body.written false))
  | .mapping collection (.lambda parameters body) =>
      sign (.identifier "map") spaced :: sign .leftBracket false :: (collection.written false ++
        (Written.bars false parameters ++ (sign .arrow false :: (body.written false ++
          [sign .rightBracket false]))))
  | .mapping collection function =>
      sign (.identifier "map") spaced :: sign .leftBracket false :: (collection.written false ++
        (sign .pipe false :: (function.written false ++ [sign .rightBracket false])))
  | .prefer inner => sign (.identifier "prefer") spaced :: inner.written true

def writtenSeparated (spaced : Bool) : List Expression → List Lexeme
  | [] => []
  | [entry] => entry.written spaced
  | entry :: entries =>
      entry.written spaced ++ (sign .comma false :: writtenSeparated true entries)
end

end Expression

/-! ## Expressions that have a written form -/

/-- A key, or an index with its brackets. -/
def isStep (step : String) : Prop :=
  isName step = true ∨ ∃ index : Int64, 0 ≤ index.toInt ∧ step = indexStep index

/-- A path that starts with a key. -/
def isKeyPath : List String → Prop
  | [] => False
  | key :: path => isName key = true ∧ ∀ step ∈ path, isStep step

/-- A path that starts with a key or at the root. -/
def isPath : List String → Prop
  | "" :: key :: path => isStep key ∧ ∀ step ∈ path, isStep step
  | path => isKeyPath path

namespace Expression

mutual
/-- Names, paths and numbers are such as can be written. -/
def IsLegible : Expression → Prop
  | .nil | .boolean _ | .text _ | .auto _ => True
  | .integer value => Number.minimum < value.toInt
  | .list entries => AllLegible entries
  | .reference path => isPath path
  | .merge path redirected _ => redirected = true → isKeyPath path
  | .group inner | .not inner | .prefer inner => inner.IsLegible
  | .binary _ left right => left.IsLegible ∧ right.IsLegible
  | .conditional condition consequence alternative =>
      condition.IsLegible ∧ consequence.IsLegible ∧ alternative.IsLegible
  | .call function arguments => function.IsLegible ∧ AllLegible arguments
  | .lambda parameters body => (∀ name ∈ parameters, isName name = true) ∧ body.IsLegible
  | .mapping collection function => collection.IsLegible ∧ function.IsLegible

def AllLegible : List Expression → Prop
  | [] => True
  | entry :: entries => entry.IsLegible ∧ AllLegible entries
end

end Expression

/-! ## The text of the written form -/

@[simp]
theorem Lexemes.characters_nil : characters [] = [] := rfl

@[simp]
theorem Lexemes.characters_cons (lexeme : Lexeme) (rest : List Lexeme) :
    characters (lexeme :: rest) = lexeme.characters ++ characters rest := rfl

@[simp]
theorem Lexemes.characters_append (first second : List Lexeme) :
    characters (first ++ second) = characters first ++ characters second :=
  List.flatMap_append

/-- The white space before a token. -/
def blank (spaced : Bool) : List Char := if spaced then [' '] else []

@[simp]
theorem blank_true : blank true = [' '] := rfl

@[simp]
theorem blank_false : blank false = [] := rfl

@[simp]
theorem Lexeme.characters_sign (token : Token) (spaced : Bool) :
    (sign token spaced).characters = blank spaced ++ token.characters := rfl

@[simp]
theorem Token.characters_identifier (name : String) :
    (Token.identifier name).characters = name.toList := rfl

theorem indexOf?_of_isName {name : String} (named : isName name = true) : indexOf? name = none := by
  rcases isName_iff.mp named with ⟨first, others, characters, start, _⟩
  unfold indexOf?
  rw [characters]
  split
  · rename_i rest same
    cases same
    cases start
  · rfl

theorem readDigits?_toDigits (value : Nat) :
    Number.readDigits? (Nat.toDigits 10 value) = some value := by
  have all : (Nat.toDigits 10 value).all Char.isDigit = true := by
    rw [List.all_eq_true]
    exact fun digit => Nat.isDigit_of_mem_toDigits (by decide) (by decide)
  have some : (Nat.toDigits 10 value).isEmpty = false := by
    simp [Nat.toDigits_ne_nil]
  rw [Number.readDigits?, some, all, decimalValue_toDigits]
  rfl

theorem indexStep_toList {index : Int64} (positive : 0 ≤ index.toInt) :
    (indexStep index).toList = '[' :: (Nat.toDigits 10 index.toInt.toNat ++ [']']) := by
  unfold indexStep
  rw [String.toList_append, String.toList_append, toString_of_nonneg positive]
  rfl

theorem readUnsigned?_toDigits {bound value : Nat} (fits : value ≤ bound) :
    Number.readUnsigned? bound (Nat.toDigits 10 value) = some value := by
  have digits := readDigits?_toDigits value
  have unsigned : '+' ∉ Nat.toDigits 10 value := by
    intro member
    cases Nat.isDigit_of_mem_toDigits (by decide) (by decide) member
  generalize Nat.toDigits 10 value = characters at digits unsigned
  unfold Number.readUnsigned?
  split
  · exact absurd List.mem_cons_self unsigned
  · dsimp only
    rw [digits]
    exact if_pos (decide_eq_true fits)

theorem indexOf?_indexStep {index : Int64} (positive : 0 ≤ index.toInt) :
    indexOf? (indexStep index) = some index.toInt.toNat := by
  have fits : index.toInt.toNat ≤ 18446744073709551615 := by
    have := index.toInt_lt
    omega
  unfold indexOf?
  rw [indexStep_toList positive]
  simp only [List.reverse_append, List.reverse_singleton, List.singleton_append,
    List.reverse_reverse, readUnsigned?_toDigits fits]

theorem ofInt_toNat {index : Int64} (positive : 0 ≤ index.toInt) :
    Int64.ofInt index.toInt.toNat = index := by
  rw [Int.toNat_of_nonneg positive, Int64.ofInt_toInt]

theorem Written.step_of_name {name : String} (named : isName name = true) (spaced : Bool) :
    Written.step spaced name = [sign (.identifier name) spaced] := by
  unfold Written.step
  rw [indexOf?_of_isName named]

theorem Written.step_of_index {index : Int64} (positive : 0 ≤ index.toInt) (spaced : Bool) :
    Written.step spaced (indexStep index) =
      [sign .leftBracket spaced, sign (.integer index) false, sign .rightBracket false] := by
  unfold Written.step
  rw [indexOf?_indexStep positive]
  dsimp only
  rw [ofInt_toNat positive]

theorem Written.step_starts {key : String} (legible : isStep key) :
    ∃ token rest, ∀ spaced, Written.step spaced key = sign token spaced :: rest := by
  rcases legible with named | ⟨index, positive, rfl⟩
  · exact ⟨_, _, Written.step_of_name named⟩
  · exact ⟨_, _, Written.step_of_index positive⟩

theorem characters_step (spaced : Bool) {key : String} (legible : isStep key) :
    Lexemes.characters (Written.step spaced key) = blank spaced ++ key.toList := by
  rcases legible with named | ⟨index, positive, rfl⟩
  · rw [Written.step_of_name named]
    simp
  · rw [Written.step_of_index positive, indexStep_toList positive, ← toString_of_nonneg positive]
    simp [Token.characters]

theorem characters_steps {path : List String} (legible : ∀ step ∈ path, isStep step) :
    Lexemes.characters (Written.steps path) = path.flatMap fun key => '.' :: key.toList := by
  induction path with
  | nil => rfl
  | cons key path induction =>
      have first := characters_step false (legible key List.mem_cons_self)
      have others := induction fun step member => legible step (List.mem_cons_of_mem _ member)
      rw [Written.steps_cons, Lexemes.characters_cons, Lexemes.characters_append, first, others]
      rfl

theorem pathText_toList (key : String) (path : List String) :
    (Expression.pathText (key :: path)).toList =
      key.toList ++ path.flatMap fun key => '.' :: key.toList := by
  induction path generalizing key with
  | nil => simp [Expression.pathText]
  | cons next path induction =>
      rw [Expression.pathText, String.intercalate_cons_cons, ← Expression.pathText,
        String.toList_append, String.toList_append, induction, List.flatMap_cons]
      simp

theorem characters_keys (spaced : Bool) {key : String} {path : List String}
    (first : isStep key) (others : ∀ step ∈ path, isStep step) :
    Lexemes.characters (Written.keys spaced (key :: path)) =
      blank spaced ++ (Expression.pathText (key :: path)).toList := by
  rw [Written.keys, Lexemes.characters_append, characters_step spaced first,
    characters_steps others, pathText_toList, List.append_assoc]

theorem Written.path_of_key {key : String} (named : isName key = true) (spaced : Bool)
    (path : List String) : Written.path spaced (key :: path) = Written.keys spaced (key :: path) := by
  rw [Written.path]
  intro others same
  cases same
  cases named

theorem characters_keyPath (spaced : Bool) {path : List String} (legible : isKeyPath path) :
    Lexemes.characters (Written.path spaced path) =
      blank spaced ++ (Expression.pathText path).toList := by
  cases path with
  | nil => exact legible.elim
  | cons key path =>
      rw [Written.path_of_key legible.1]
      exact characters_keys spaced (.inl legible.1) legible.2

theorem characters_path (spaced : Bool) {path : List String} (legible : isPath path) :
    Lexemes.characters (Written.path spaced path) =
      blank spaced ++ (Expression.pathText path).toList := by
  unfold isPath at legible
  split at legible
  · rename_i key path
    rw [Written.path, Lexemes.characters_cons, characters_keys false legible.1 legible.2,
      pathText_toList, pathText_toList]
    simp [blank, Token.characters]
  · exact characters_keyPath spaced legible

theorem toInt_neg {value : Int64} (fits : Number.minimum < value.toInt) :
    (-value).toInt = -value.toInt := by
  have upper := value.toInt_lt
  unfold Number.minimum at fits
  rw [Int64.toInt_neg]
  exact Int.bmod_eq_of_le (by omega) (by omega)

theorem characters_integer (spaced : Bool) {value : Int64}
    (fits : Number.minimum < value.toInt) :
    Lexemes.characters (Written.integer spaced value) =
      blank spaced ++ (toString value.toInt).toList := by
  unfold Written.integer
  split
  · rename_i negative
    have positive : ¬ 0 ≤ value.toInt := by omega
    have digits : (toString value.toInt).toList = '-' :: (toString (-value).toInt).toList := by
      rw [toInt_neg fits, Int.toString_eq_repr, Int.toString_eq_repr, Int.repr_eq_if,
        Int.repr_eq_if, if_neg positive, if_pos (by omega)]
      exact String.toList_append
    rw [digits]
    simp only [Lexemes.characters_cons, Lexeme.characters_sign, Token.characters, blank,
      Lexemes.characters_nil, List.append_nil]
    simp
  · simp [blank, Token.characters]

theorem characters_names (parameters : List String) :
    Lexemes.characters (Written.names parameters) =
      (Expression.parametersText parameters).toList := by
  fun_induction Written.names parameters with
  | case1 => rfl
  | case2 name => simp [Expression.parametersText, Token.characters]
  | case3 name others more induction =>
      cases others with
      | nil => exact absurd rfl more
      | cons next others =>
          rw [Lexemes.characters_cons, Lexemes.characters_cons, induction,
            Expression.parametersText, Expression.parametersText, String.intercalate_cons_cons]
          simp [Token.characters]

theorem characters_bars (spaced : Bool) (parameters : List String) :
    Lexemes.characters (Written.bars spaced parameters) =
      blank spaced ++ '|' :: ((Expression.parametersText parameters).toList ++ ['|']) := by
  unfold Written.bars
  split
  · rename_i none
    subst none
    simp [blank, Token.characters, Expression.parametersText]
  · simp [blank, Token.characters, characters_names]

theorem characters_operator {operator : Operator} (sign : operator ≠ .concatenation) :
    Lexemes.characters (Written.operator operator) = ' ' :: operator.symbol.toList := by
  cases operator <;> first | rfl | exact absurd rfl sign

namespace Expression

/-- Only a lambda is written in a mapping other than by itself. -/
theorem written_mapping {function : Expression}
    (plain : ∀ parameters body, function ≠ .lambda parameters body) (spaced : Bool)
    (collection : Expression) :
    (mapping collection function).written spaced =
      sign (.identifier "map") spaced :: sign .leftBracket false :: (collection.written false ++
        (sign .pipe false :: (function.written false ++ [sign .rightBracket false]))) := by
  cases function <;> first | rfl | exact absurd rfl (plain _ _)

theorem print_mapping {function : Expression}
    (plain : ∀ parameters body, function ≠ .lambda parameters body) (collection : Expression) :
    (mapping collection function).print =
      "map[" ++ collection.print ++ "|" ++ function.print ++ "]" := by
  cases function <;> first | rfl | exact absurd rfl (plain _ _)

theorem lambda_or_plain (function : Expression) :
    (∃ parameters body, function = .lambda parameters body) ∨
      ∀ parameters body, function ≠ .lambda parameters body := by
  cases function <;> simp

theorem writtenSeparated_cons (spaced : Bool) (entry next : Expression)
    (entries : List Expression) :
    writtenSeparated spaced (entry :: next :: entries) =
      entry.written spaced ++ (sign .comma false :: writtenSeparated true (next :: entries)) := rfl

theorem printSeparated_cons (entry next : Expression) (entries : List Expression) :
    printSeparated (entry :: next :: entries) =
      entry.print ++ ", " ++ printSeparated (next :: entries) := rfl

mutual
/-- The text of the written form is the printed one. -/
theorem characters_written (spaced : Bool) : ∀ {expression : Expression}, expression.IsLegible →
    Lexemes.characters (expression.written spaced) = blank spaced ++ expression.print.toList
  | .nil, _ => by simp [written, print]
  | .boolean value, _ => by cases value <;> simp [written, print]
  | .integer value, legible => characters_integer spaced legible
  | .text value, _ => by simp [written, print, Token.characters, escape]
  | .list entries, legible => by
      simp [written, print, characters_writtenSeparated false legible, Token.characters]
  | .reference path, legible => characters_path spaced legible
  | .merge path redirected replacing, legible => by
      cases redirected with
      | true =>
          cases replacing <;> simp [written, print, characters_keyPath true (legible rfl)]
      | false => cases replacing <;> simp [written, print]
  | .auto path, _ => by simp [written, print]
  | .group inner, legible => by
      simp [written, print, characters_written false (show inner.IsLegible from legible),
        Token.characters]
  | .binary operator left right, legible => by
      by_cases concatenation : operator = .concatenation
      · subst concatenation
        simp [written, print, characters_written spaced legible.1,
          characters_written true legible.2, Written.operator]
      · simp only [written, Lexemes.characters_append, characters_written spaced legible.1,
          characters_operator concatenation, characters_written true legible.2]
        cases operator <;> first | exact absurd rfl concatenation | simp [print]
  | .not operand, legible => by
      simp [written, print, characters_written false (show operand.IsLegible from legible),
        Token.characters]
  | .conditional condition consequence alternative, legible => by
      simp [written, print, characters_written spaced legible.1,
        characters_written true legible.2.1, characters_written true legible.2.2,
        Token.characters]
  | .call function arguments, legible => by
      simp [written, print, characters_written spaced legible.1,
        characters_writtenSeparated false legible.2, Token.characters]
  | .lambda parameters body, legible => by
      simp [written, print, characters_bars, characters_written false legible.2,
        Token.characters]
  | .mapping collection function, legible => by
      have first := characters_written false legible.1
      have second := characters_written false legible.2
      rcases lambda_or_plain function with ⟨parameters, body, rfl⟩ | plain
      · have body : Lexemes.characters (body.written false) = body.print.toList := by
          simpa [written, print, characters_bars, Token.characters] using second
        simp [written, print, first, body, characters_bars, Token.characters]
      · rw [written_mapping plain, print_mapping plain]
        simp [first, second, Token.characters]
  | .prefer inner, legible => by
      simp [written, print, characters_written true (show inner.IsLegible from legible)]

theorem characters_writtenSeparated (spaced : Bool) : ∀ {entries : List Expression},
    AllLegible entries → Lexemes.characters (writtenSeparated spaced entries) =
      blank (spaced && !entries.isEmpty) ++ (printSeparated entries).toList
  | [], _ => by simp [writtenSeparated, printSeparated]
  | [entry], legible => by simp [writtenSeparated, printSeparated, characters_written spaced legible.1]
  | entry :: next :: entries, legible => by
      rw [writtenSeparated_cons, printSeparated_cons]
      simp [characters_written spaced legible.1, characters_writtenSeparated true legible.2,
        Token.characters]
end

end Expression

/-! ## The tokens of the written form stand apart -/

theorem Token.endsBefore_blank (token : Token) : token.endsBefore (some ' ') := by
  have word : ∀ character ∈ some ' ', isNamePart character = false ∧ character ≠ '-' := by
    rintro _ ⟨⟩
    exact ⟨rfl, by decide⟩
  have sign : ∀ character ∈ some ' ', character ≠ '>' ∧ character ≠ 'a' ∧ character ≠ 'o' := by
    rintro _ ⟨⟩
    exact ⟨by decide, by decide, by decide⟩
  cases token <;> first | exact True.intro | exact word | exact sign | exact nofun

/-- A sign that ends whatever stands before it. -/
theorem endsName_of_mem {character : Char} {rest : List Char}
    (known : character ∈ [' ', '.', ',', '(', ')', '[', ']', '|']) :
    endsName (character :: rest) := by
  intro first same
  cases same
  have all : [' ', '.', ',', '(', ')', '[', ']', '|'].all fun character =>
      !isNamePart character && character != '-' := rfl
  have here := List.all_eq_true.mp all character known
  rwa [Bool.and_eq_true, Bool.not_eq_true', bne_iff_ne] at here

theorem endsName_spaced (token : Token) (rest : List Lexeme) :
    endsName (Lexemes.characters (sign token true :: rest)) :=
  endsName_of_mem (by decide)

/-- A token that an expression may start with. -/
def Token.starts (token : Token) : Prop := startsOperand token = true ∨ token = .minus

theorem Written.path_starts {path : List String} (legible : isPath path) :
    ∃ token rest, token.starts ∧
      ∀ spaced, Written.path spaced path = sign token spaced :: rest := by
  unfold isPath at legible
  split at legible
  · exact ⟨_, _, .inl rfl, fun _ => rfl⟩
  · cases path with
    | nil => exact legible.elim
    | cons key path =>
        refine ⟨.identifier key, Written.steps path, .inl rfl, fun spaced => ?_⟩
        rw [Written.path_of_key legible.1, Written.keys, Written.step_of_name legible.1,
          List.singleton_append]

namespace Expression

/-- The first token carries the white space before the expression. -/
theorem written_starts : ∀ {expression : Expression}, expression.IsLegible →
    ∃ token rest, token.starts ∧ ∀ spaced, expression.written spaced = sign token spaced :: rest
  | .nil, _ | .boolean _, _ | .text _, _ | .auto _, _ => ⟨_, _, .inl rfl, fun _ => rfl⟩
  | .integer value, _ => by
      by_cases negative : value.toInt < 0
      · exact ⟨.minus, _, .inr rfl, fun _ => if_pos negative⟩
      · exact ⟨.integer value, _, .inl rfl, fun _ => if_neg negative⟩
  | .list _, _ | .group _, _ | .merge _ _ _, _ | .not _, _ | .lambda _ _, _ | .prefer _, _ =>
      ⟨_, _, .inl rfl, fun _ => rfl⟩
  | .reference path, legible => Written.path_starts legible
  | .binary operator left right, legible => by
      rcases written_starts legible.1 with ⟨token, rest, start, same⟩
      exact ⟨token, _, start, fun spaced => by rw [written, same, List.cons_append]⟩
  | .conditional condition consequence alternative, legible => by
      rcases written_starts legible.1 with ⟨token, rest, start, same⟩
      exact ⟨token, _, start, fun spaced => by rw [written, same, List.cons_append]⟩
  | .call function arguments, legible => by
      rcases written_starts legible.1 with ⟨token, rest, start, same⟩
      exact ⟨token, _, start, fun spaced => by rw [written, same, List.cons_append]⟩
  | .mapping collection function, _ => by
      rcases lambda_or_plain function with ⟨parameters, body, rfl⟩ | plain
      · exact ⟨_, _, .inl rfl, fun _ => rfl⟩
      · exact ⟨_, _, .inl rfl, fun spaced => written_mapping plain spaced collection⟩

end Expression

theorem Lexemes.Apart.cons {token : Token} {spaced : Bool} {rest : List Lexeme}
    (apart : Apart rest) (writable : token.isWritable)
    (ends : token.endsBefore (Lexemes.characters rest).head?) :
    Apart (sign token spaced :: rest) :=
  ⟨⟨writable, ends⟩, apart⟩

theorem Lexemes.Apart.suffix {front rest : List Lexeme} (apart : Apart (front ++ rest)) :
    Apart rest := by
  induction front with
  | nil => exact apart
  | cons lexeme front induction => exact induction apart.2

theorem apart_step (spaced : Bool) {key : String} (legible : isStep key) {rest : List Lexeme}
    (apart : Apart rest) (ends : endsName (Lexemes.characters rest)) :
    Apart (Written.step spaced key ++ rest) := by
  rcases legible with named | ⟨index, positive, rfl⟩
  · rw [Written.step_of_name named]
    exact apart.cons named ends
  · rw [Written.step_of_index positive]
    have close : Apart (sign .rightBracket false :: rest) := apart.cons trivial trivial
    have number : Apart (sign (.integer index) false :: sign .rightBracket false :: rest) :=
      close.cons positive (endsName_of_mem (by decide))
    exact number.cons trivial trivial

theorem endsName_steps (path : List String) {rest : List Lexeme}
    (ends : endsName (Lexemes.characters rest)) :
    endsName (Lexemes.characters (Written.steps path ++ rest)) := by
  cases path with
  | nil => exact ends
  | cons key path => exact endsName_of_mem (by decide)

theorem apart_steps {path : List String} (legible : ∀ step ∈ path, isStep step)
    {rest : List Lexeme} (apart : Apart rest) (ends : endsName (Lexemes.characters rest)) :
    Apart (Written.steps path ++ rest) := by
  induction path with
  | nil => exact apart
  | cons key path induction =>
      have others := induction fun step member => legible step (List.mem_cons_of_mem _ member)
      have first := apart_step false (legible key List.mem_cons_self) others
        (endsName_steps path ends)
      rw [Written.steps_cons, List.cons_append, List.append_assoc]
      exact first.cons trivial trivial

theorem apart_keys (spaced : Bool) {key : String} {path : List String} (first : isStep key)
    (others : ∀ step ∈ path, isStep step) {rest : List Lexeme} (apart : Apart rest)
    (ends : endsName (Lexemes.characters rest)) :
    Apart (Written.keys spaced (key :: path) ++ rest) := by
  rw [Written.keys, List.append_assoc]
  exact apart_step spaced first (apart_steps others apart ends) (endsName_steps path ends)

theorem apart_path (spaced : Bool) {path : List String} (legible : isPath path)
    {rest : List Lexeme} (apart : Apart rest) (ends : endsName (Lexemes.characters rest)) :
    Apart (Written.path spaced path ++ rest) := by
  unfold isPath at legible
  split at legible
  · exact (apart_keys false legible.1 legible.2 apart ends).cons trivial trivial
  · cases path with
    | nil => exact legible.elim
    | cons key path =>
        rw [Written.path_of_key legible.1]
        exact apart_keys spaced (.inl legible.1) legible.2 apart ends

theorem isPath_of_isKeyPath {path : List String} (legible : isKeyPath path) : isPath path := by
  unfold isPath
  split
  · cases legible.1
  · exact legible

theorem head?_toDigits (value : Nat) (rest : List Char) :
    ∃ digit, (Nat.toDigits 10 value ++ rest).head? = some digit ∧ digit.isDigit = true := by
  cases held : Nat.toDigits 10 value with
  | nil => exact absurd held Nat.toDigits_ne_nil
  | cons first others =>
      exact ⟨first, rfl, Nat.isDigit_of_mem_toDigits (by decide) (by decide)
        (held ▸ List.mem_cons_self : first ∈ Nat.toDigits 10 value)⟩

theorem apart_integer (spaced : Bool) {value : Int64} (fits : Number.minimum < value.toInt)
    {rest : List Lexeme} (apart : Apart rest) (ends : endsName (Lexemes.characters rest)) :
    Apart (Written.integer spaced value ++ rest) := by
  unfold Written.integer
  split
  · rename_i negative
    have positive : 0 ≤ (-value).toInt := by
      rw [toInt_neg fits]
      omega
    have digits : Apart (sign (.integer (-value)) false :: rest) := apart.cons positive ends
    refine digits.cons trivial ?_
    rw [Lexemes.characters_cons, Lexeme.characters_sign, blank_false, List.nil_append,
      Token.characters, toString_of_nonneg positive]
    rcases head?_toDigits (-value).toInt.toNat (Lexemes.characters rest) with ⟨first, same, digit⟩
    rw [same]
    rintro _ ⟨⟩
    refine ⟨?_, ?_, ?_⟩ <;> (rintro rfl; cases digit)
  · rename_i positive
    exact apart.cons (Int.not_lt.mp positive) ends

theorem apart_names {parameters : List String} (legible : ∀ name ∈ parameters, isName name = true)
    {rest : List Lexeme} (apart : Apart rest) (ends : endsName (Lexemes.characters rest)) :
    Apart (Written.names parameters ++ rest) := by
  fun_induction Written.names parameters with
  | case1 => exact apart
  | case2 name => exact apart.cons (legible name List.mem_cons_self) ends
  | case3 name others more induction =>
      have next := induction fun name member => legible name (List.mem_cons_of_mem _ member)
      have comma : Apart (sign .comma false :: (Written.names others ++ rest)) :=
        next.cons trivial trivial
      exact comma.cons (legible name List.mem_cons_self) (endsName_of_mem (by decide))

/-- What starts an expression makes no longer symbol of one that stands before it. -/
theorem head?_characters_starts {token : Token} (starts : token.starts)
    (writable : token.isWritable) (rest : List Lexeme) :
    (Lexemes.characters (sign token false :: rest)).head? ≠ some '|' ∧
      (Lexemes.characters (sign token false :: rest)).head? ≠ some '=' := by
  rw [Lexemes.characters_cons, Lexeme.characters_sign, blank_false, List.nil_append]
  cases token with
  | integer value =>
      rw [Token.characters, toString_of_nonneg writable]
      rcases head?_toDigits value.toInt.toNat (Lexemes.characters rest) with ⟨first, same, digit⟩
      rw [same]
      constructor <;> (rintro ⟨⟩; cases digit)
  | identifier name =>
      rcases isName_iff.mp writable with ⟨first, others, characters, start, _⟩
      rw [Token.characters_identifier, characters]
      constructor <;> (rintro ⟨⟩; cases start)
  | text | leftParenthesis | leftBracket | dot | bang | minus =>
      constructor <;> (rw [Token.characters]; exact nofun)
  | _ => rcases starts with starts | starts <;> cases starts

/-- A parameter list and the arrow behind it. -/
theorem apart_bars (spaced : Bool) {parameters : List String}
    (legible : ∀ name ∈ parameters, isName name = true) {rest : List Lexeme}
    (apart : Apart (sign .arrow false :: rest)) :
    Apart (Written.bars spaced parameters ++ sign .arrow false :: rest) := by
  unfold Written.bars
  split
  · exact apart.cons trivial trivial
  · rename_i some
    have close : Apart (sign .pipe false :: sign .arrow false :: rest) := by
      refine apart.cons trivial ?_
      rw [Lexemes.characters_cons, Lexeme.characters_sign]
      exact nofun
    rw [List.cons_append, List.append_assoc, List.singleton_append]
    have inside := apart_names legible close (endsName_of_mem (by decide))
    refine inside.cons trivial ?_
    cases parameters with
    | nil => exact absurd rfl some
    | cons name others =>
        rcases Written.names_cons name others with ⟨tail, same⟩
        rw [same, List.cons_append]
        have starts : (Token.identifier name).starts := .inl rfl
        exact (head?_characters_starts starts (legible name List.mem_cons_self) _).1

namespace Expression

/-- What starts an expression makes no longer symbol of one that stands before it. -/
theorem head?_written {expression : Expression} (legible : expression.IsLegible)
    {rest : List Lexeme} (apart : Apart (expression.written false ++ rest)) :
    (Lexemes.characters (expression.written false ++ rest)).head? ≠ some '|' ∧
      (Lexemes.characters (expression.written false ++ rest)).head? ≠ some '=' := by
  rcases written_starts legible with ⟨token, tail, starts, same⟩
  rw [same, List.cons_append] at apart ⊢
  exact head?_characters_starts starts apart.1.1 _

/-- Before white space everything ends. -/
theorem endsName_written {expression : Expression} (legible : expression.IsLegible)
    (rest : List Lexeme) : endsName (Lexemes.characters (expression.written true ++ rest)) := by
  rcases written_starts legible with ⟨token, tail, starts, same⟩
  rw [same]
  exact endsName_of_mem (by decide)

mutual
/-- In the written form each token ends where the next one starts. -/
theorem apart_written (spaced : Bool) : ∀ {expression : Expression}, expression.IsLegible →
    ∀ {rest : List Lexeme}, Apart rest → endsName (Lexemes.characters rest) →
      Apart (expression.written spaced ++ rest)
  | .nil, _, _, apart, ends | .auto _, _, _, apart, ends => apart.cons (by rfl) ends
  | .boolean value, _, _, apart, ends => apart.cons (by cases value <;> rfl) ends
  | .integer value, legible, _, apart, ends => apart_integer spaced legible apart ends
  | .text value, _, _, apart, _ => apart.cons trivial trivial
  | .list entries, legible, rest, apart, ends => by
      have close : Apart (sign .rightBracket false :: rest) := apart.cons trivial trivial
      have inside := apart_writtenSeparated false (show AllLegible entries from legible) close
        (endsName_of_mem (by decide))
      rw [written, List.cons_append, List.append_assoc]
      exact inside.cons trivial trivial
  | .reference path, legible, _, apart, ends => apart_path spaced legible apart ends
  | .merge path redirected replacing, legible, rest, apart, ends => by
      have inside : Apart ((if redirected then Written.path true path else []) ++ rest) ∧
          endsName (Lexemes.characters
            ((if redirected then Written.path true path else []) ++ rest)) := by
        cases redirected with
        | true =>
            have path := isPath_of_isKeyPath (legible rfl)
            rcases Written.path_starts path with ⟨token, tail, _, same⟩
            refine ⟨apart_path true path apart ends, ?_⟩
            rw [if_pos rfl, same]
            exact endsName_spaced _ _
        | false => exact ⟨apart, ends⟩
      rw [written, List.cons_append, List.append_assoc]
      cases replacing with
      | true =>
          have word : Apart (sign (.identifier "replace") true ::
              ((if redirected then Written.path true path else []) ++ rest)) :=
            inside.1.cons (by rfl) inside.2
          exact word.cons (by rfl) (endsName_spaced _ _)
      | false => exact inside.1.cons (by rfl) inside.2
  | .group inner, legible, rest, apart, ends => by
      have close : Apart (sign .rightParenthesis false :: rest) := apart.cons trivial trivial
      have inside := apart_written false (show inner.IsLegible from legible) close
        (endsName_of_mem (by decide))
      rw [written, List.cons_append, List.append_assoc]
      exact inside.cons trivial trivial
  | .binary operator left right, legible, rest, apart, ends => by
      have second := apart_written true legible.2 apart ends
      rw [written, List.append_assoc, List.append_assoc]
      unfold Written.operator
      split
      · exact apart_written spaced legible.1 second (endsName_written legible.2 rest)
      · rename_i sign
        have writable : operator.token.isWritable := by
          cases operator <;> trivial
        rcases written_starts legible.2 with ⟨token, tail, _, same⟩
        have behind : Apart (Lexeme.sign operator.token true :: (right.written true ++ rest)) := by
          refine second.cons writable ?_
          rw [same]
          exact operator.token.endsBefore_blank
        exact apart_written spaced legible.1 behind (endsName_spaced _ _)
  | .not operand, legible, rest, apart, ends => by
      have inside := apart_written false (show operand.IsLegible from legible) apart ends
      exact inside.cons trivial (head?_written (show operand.IsLegible from legible) inside).2
  | .conditional condition consequence alternative, legible, rest, apart, ends => by
      have third := apart_written true legible.2.2 apart ends
      have colon : Apart (sign .colon true :: (alternative.written true ++ rest)) :=
        third.cons trivial trivial
      have second := apart_written true legible.2.1 colon (endsName_of_mem (by decide))
      have question : Apart (sign .question true :: (consequence.written true ++
          sign .colon true :: (alternative.written true ++ rest))) :=
        second.cons trivial trivial
      have first := apart_written spaced legible.1 question (endsName_of_mem (by decide))
      rw [written]
      simpa only [List.append_assoc, List.cons_append] using first
  | .call function arguments, legible, rest, apart, ends => by
      have close : Apart (sign .rightParenthesis false :: rest) := apart.cons trivial trivial
      have inside := apart_writtenSeparated false legible.2 close (endsName_of_mem (by decide))
      have opens : Apart (sign .leftParenthesis false :: (writtenSeparated false arguments ++
          sign .rightParenthesis false :: rest)) := inside.cons trivial trivial
      have first := apart_written spaced legible.1 opens (endsName_of_mem (by decide))
      rw [written]
      simpa only [List.append_assoc, List.cons_append, List.nil_append] using first
  | .lambda parameters body, legible, rest, apart, ends => by
      have inside := apart_written false legible.2 apart ends
      have arrow : Apart (sign .arrow false :: (body.written false ++ rest)) :=
        inside.cons trivial trivial
      rcases Written.bars_starts parameters with ⟨token, tail, _, same⟩
      rw [written, List.cons_append, List.append_assoc, List.cons_append]
      refine (apart_bars true legible.1 arrow).cons (by rfl) ?_
      rw [same]
      exact endsName_spaced _ _
  | .mapping collection function, legible, rest, apart, ends => by
      have close : Apart (sign .rightBracket false :: rest) := apart.cons trivial trivial
      have second := apart_written false legible.2 close (endsName_of_mem (by decide))
      rcases lambda_or_plain function with ⟨parameters, body, rfl⟩ | plain
      · -- The body is written as in the lambda itself, only what stands before it differs.
        have arrow : Apart (sign .arrow false :: (body.written false ++
            sign .rightBracket false :: rest)) := by
          rw [written, List.cons_append, List.append_assoc, List.cons_append] at second
          exact second.2.suffix
        rcases Written.bars_starts parameters with ⟨token, tail, known, same⟩
        have behind := apart_bars false legible.2.1 arrow
        have first := apart_written false legible.1 behind (by
          rw [same]
          rcases known with rfl | rfl <;> exact endsName_of_mem (by decide))
        have opens : Apart (sign .leftBracket false :: _) := first.cons trivial trivial
        rw [written]
        simp only [List.cons_append, List.append_assoc, List.nil_append]
        exact opens.cons (by rfl) (endsName_of_mem (by decide))
      · have bar : Apart (sign .pipe false :: (function.written false ++
            sign .rightBracket false :: rest)) :=
          second.cons trivial (head?_written legible.2 second).1
        have first := apart_written false legible.1 bar (endsName_of_mem (by decide))
        have opens : Apart (sign .leftBracket false :: _) := first.cons trivial trivial
        rw [written_mapping plain]
        simp only [List.cons_append, List.append_assoc, List.nil_append]
        exact opens.cons (by rfl) (endsName_of_mem (by decide))
  | .prefer inner, legible, rest, apart, ends => by
      have inside := apart_written true (show inner.IsLegible from legible) apart ends
      exact inside.cons (by rfl) (endsName_written (show inner.IsLegible from legible) rest)

theorem apart_writtenSeparated (spaced : Bool) : ∀ {entries : List Expression},
    AllLegible entries → ∀ {rest : List Lexeme}, Apart rest →
      endsName (Lexemes.characters rest) → Apart (writtenSeparated spaced entries ++ rest)
  | [], _, _, apart, _ => apart
  | [entry], legible, _, apart, ends => apart_written spaced legible.1 apart ends
  | entry :: next :: entries, legible, rest, apart, ends => by
      have others := apart_writtenSeparated true legible.2 apart ends
      have comma : Apart (sign .comma false :: (writtenSeparated true (next :: entries) ++ rest)) :=
        others.cons trivial trivial
      rw [writtenSeparated_cons, List.append_assoc, List.cons_append]
      exact apart_written spaced legible.1 comma (endsName_of_mem (by decide))
end

/-- The scanner finds the tokens of the written form in the printed text. -/
theorem scan_print {expression : Expression} (legible : expression.IsLegible) :
    ∃ lexemes, scan expression.print = .ok lexemes ∧
      Alike lexemes (expression.written false ++ [sign .finish false]) := by
  have apart : Apart (expression.written false ++ []) :=
    apart_written false legible trivial (by simp [endsName])
  rw [List.append_nil] at apart
  have scanned := scanFrom_characters apart .start
  rw [characters_written false legible, blank_false, List.nil_append] at scanned
  exact scanned

end Expression

end Stencil
