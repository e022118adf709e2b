import Stencil.Proofs.Expression.Depth

namespace Stencil

open Lexemes Grammar

/-! Where the grammar refuses a token. What is being read is a part of the expression that comes to
another part inside of it or behind what was read of it, until a token must stand that does not. -/

/-! ## The fault of a refused token -/

namespace ParseFault

/-- The token that the message shows as the one that was found. -/
def shown : ParseFault → Option Token
  | .unexpected _ found | .expected _ _ found | .expectedKey found | .expectedParameter found
  | .expectedSeparator found => some found
  | _ => none

/-- The refused token has been stepped over when the fault is raised. -/
def isLate : ParseFault → Bool
  | .expectedKey _ | .expectedIndex | .expectedParameter _ | .expectedSeparator _ => true
  | _ => false

/-- The error that a refused token makes, which is the first of these. -/
def raisedAt (fault : ParseFault) (lexemes : List Lexeme) : ParseError :=
  ⟨fault, (current (if fault.isLate then advance lexemes else lexemes)).position⟩

end ParseFault

/-! ## Refusals -/

namespace Grammar

/-- What a grammar function is about, with the part of it that was read before. -/
inductive Part where
  | expression
  | conditional
  | chain (level : Level)
  | chainRest (level : Level) (left : Expression)
  | operand (level : Level)
  | unary
  | calls (function : Expression)
  | separated (enclosure : Enclosure)
  | entries (enclosure : Enclosure)
  | primary
  | lambda
  | mapping
  | mapped
  | path
  | steps
  | key (afterDot : Bool)
  | index
  | parameters

/-- The part that a phrase is read for. -/
def Phrase.part : Phrase → Part
  | .expression _ => .expression
  | .conditional _ => .conditional
  | .chain level _ => .chain level
  | .chainRest level left _ => .chainRest level left
  | .operand level _ => .operand level
  | .unary _ => .unary
  | .calls function _ => .calls function
  | .separated enclosure _ => .separated enclosure
  | .entries enclosure _ => .entries enclosure
  | .primary _ => .primary
  | .lambda _ => .lambda
  | .mapping _ => .mapping
  | .mapped _ => .mapped

/-- The part has a derivation that reads it from some lexemes and leaves others. -/
def Part.Reads (place : List String) (lexemes rest : List Lexeme) : Part → Prop
  | .expression => ∃ read, Grammar.Reads place (.expression read) lexemes rest
  | .conditional => ∃ read, Grammar.Reads place (.conditional read) lexemes rest
  | .chain level => ∃ read, Grammar.Reads place (.chain level read) lexemes rest
  | .chainRest level left => ∃ read, Grammar.Reads place (.chainRest level left read) lexemes rest
  | .operand level => ∃ read, Grammar.Reads place (.operand level read) lexemes rest
  | .unary => ∃ read, Grammar.Reads place (.unary read) lexemes rest
  | .calls function => ∃ read, Grammar.Reads place (.calls function read) lexemes rest
  | .separated enclosure => ∃ read, Grammar.Reads place (.separated enclosure read) lexemes rest
  | .entries enclosure => ∃ read, Grammar.Reads place (.entries enclosure read) lexemes rest
  | .primary => ∃ read, Grammar.Reads place (.primary read) lexemes rest
  | .lambda => ∃ read, Grammar.Reads place (.lambda read) lexemes rest
  | .mapping => ∃ read, Grammar.Reads place (.mapping read) lexemes rest
  | .mapped => ∃ read, Grammar.Reads place (.mapped read) lexemes rest
  | .path => ∃ path, Path path lexemes rest
  | .steps => ∃ steps, Steps steps lexemes rest
  | .key afterDot => ∃ step, parseKey afterDot lexemes = .ok (step, rest)
  | .index => ∃ step, parseIndex lexemes = .ok (step, rest)
  | .parameters => ∃ names, Parameters names lexemes rest

/-- Reading a part from some lexemes comes to another part, which starts at others. -/
inductive Enters (place : List String) : Part → List Lexeme → Part → List Lexeme → Prop where
  | preferred {lexemes : List Lexeme} (starts : startsPreferred lexemes) :
      Enters place .expression lexemes .conditional (advance lexemes)
  | expression {lexemes : List Lexeme} (starts : ¬ startsPreferred lexemes) :
      Enters place .expression lexemes .conditional lexemes
  | condition (lexemes : List Lexeme) :
      Enters place .conditional lexemes (.chain .fallback) lexemes
  | consequence {lexemes middle : List Lexeme} {condition : Expression}
      (first : Reads place (.chain .fallback condition) lexemes middle)
      (question : peek middle = .question) :
      Enters place .conditional lexemes .expression (advance middle)
  | alternative {lexemes middle behind : List Lexeme} {condition consequence : Expression}
      (first : Reads place (.chain .fallback condition) lexemes middle)
      (question : peek middle = .question)
      (second : Reads place (.expression consequence) (advance middle) behind)
      (colon : peek behind = .colon) :
      Enters place .conditional lexemes .expression (advance behind)
  | first (level : Level) (lexemes : List Lexeme) :
      Enters place (.chain level) lexemes (.operand level) lexemes
  | chain {lexemes middle : List Lexeme} {level : Level} {left : Expression}
      (first : Reads place (.operand level left) lexemes middle) :
      Enters place (.chain level) lexemes (.chainRest level left) middle
  | right {lexemes : List Lexeme} {level : Level} {operator : Operator} {left : Expression}
      (sign : level.operator? (peek lexemes) = some operator) :
      Enters place (.chainRest level left) lexemes (.operand level)
        (if operator = .concatenation then lexemes else advance lexemes)
  | chainMore {lexemes middle : List Lexeme} {level : Level} {operator : Operator}
      {left right : Expression}
      (sign : level.operator? (peek lexemes) = some operator)
      (next : Reads place (.operand level right)
        (if operator = .concatenation then lexemes else advance lexemes) middle) :
      Enters place (.chainRest level left) lexemes
        (.chainRest level (.binary operator left right)) middle
  | tighter {lexemes : List Lexeme} {level tighter : Level}
      (below : level.tighter = some tighter) :
      Enters place (.operand level) lexemes (.chain tighter) lexemes
  | tightest {lexemes : List Lexeme} {level : Level} (below : level.tighter = none) :
      Enters place (.operand level) lexemes .unary lexemes
  | not {lexemes : List Lexeme} (bang : peek lexemes = .bang) :
      Enters place .unary lexemes .unary (advance lexemes)
  | minus {lexemes : List Lexeme} (minus : peek lexemes = .minus)
      (number : ¬ startsNegative lexemes) :
      Enters place .unary lexemes .unary (advance lexemes)
  | function {lexemes : List Lexeme} (bang : peek lexemes ≠ .bang)
      (minus : peek lexemes ≠ .minus) : Enters place .unary lexemes .primary lexemes
  | applied {lexemes middle : List Lexeme} {function : Expression}
      (bang : peek lexemes ≠ .bang) (minus : peek lexemes ≠ .minus)
      (first : Reads place (.primary function) lexemes middle) :
      Enters place .unary lexemes (.calls function) middle
  | arguments {lexemes : List Lexeme} {function : Expression}
      (parenthesis : peek lexemes = .leftParenthesis) (touches : adjacent lexemes = true) :
      Enters place (.calls function) lexemes (.separated .arguments) (advance lexemes)
  | called {lexemes middle : List Lexeme} {function : Expression} {arguments : List Expression}
      (parenthesis : peek lexemes = .leftParenthesis) (touches : adjacent lexemes = true)
      (inside : Reads place (.separated .arguments arguments) (advance lexemes) middle) :
      Enters place (.calls function) lexemes (.calls (.call function arguments)) middle
  | something {lexemes : List Lexeme} {enclosure : Enclosure}
      (close : peek lexemes ≠ enclosure.close) :
      Enters place (.separated enclosure) lexemes (.entries enclosure) lexemes
  | entry (enclosure : Enclosure) (lexemes : List Lexeme) :
      Enters place (.entries enclosure) lexemes .expression lexemes
  | more {lexemes middle : List Lexeme} {enclosure : Enclosure} {entry : Expression}
      (first : Reads place (.expression entry) lexemes middle) (comma : peek middle = .comma) :
      Enters place (.entries enclosure) lexemes (.entries enclosure) (advance middle)
  | group {lexemes : List Lexeme} (parenthesis : peek lexemes = .leftParenthesis) :
      Enters place .primary lexemes .expression (advance lexemes)
  | list {lexemes : List Lexeme} (bracket : peek lexemes = .leftBracket) :
      Enters place .primary lexemes (.separated .entries) (advance lexemes)
  | root {lexemes : List Lexeme} (dot : peek lexemes = .dot)
      (touches : adjacent (advance lexemes) = true) :
      Enters place .primary lexemes .path (advance lexemes)
  | redirected {lexemes : List Lexeme} {name : String}
      (word : peek lexemes = .identifier "merge")
      (key : peek (behindReplace (advance lexemes)) = .identifier name) :
      Enters place .primary lexemes .path (behindReplace (advance lexemes))
  | lambda {lexemes : List Lexeme} (starts : startsLambda lexemes) :
      Enters place .primary lexemes .lambda (advance lexemes)
  | mapping {lexemes : List Lexeme} (starts : startsMapping lexemes) :
      Enters place .primary lexemes .mapping (advance (advance lexemes))
  | reference {lexemes : List Lexeme} {name : String}
      (word : peek lexemes = .identifier name) (free : name ∉ reserved)
      (lambda : ¬ startsLambda lexemes) (mapping : ¬ startsMapping lexemes) :
      Enters place .primary lexemes .path lexemes
  | bare {lexemes : List Lexeme} (bars : peek lexemes = .fallback)
      (arrow : peek (advance lexemes) = .arrow) :
      Enters place .lambda lexemes .expression (advance (advance lexemes))
  | names {lexemes : List Lexeme} (bar : peek lexemes = .pipe) :
      Enters place .lambda lexemes .parameters (advance lexemes)
  | named {lexemes middle : List Lexeme} {parameters : List String} (bar : peek lexemes = .pipe)
      (names : Parameters parameters (advance lexemes) middle) (arrow : peek middle = .arrow) :
      Enters place .lambda lexemes .expression (advance middle)
  | collection (lexemes : List Lexeme) : Enters place .mapping lexemes .expression lexemes
  | mapped {lexemes middle : List Lexeme} {collection : Expression}
      (first : Reads place (.expression collection) lexemes middle) (bar : peek middle = .pipe) :
      Enters place .mapping lexemes .mapped (advance middle)
  | short {lexemes middle : List Lexeme} {parameters : List String}
      (names : Parameters parameters lexemes middle) (arrow : peek middle = .arrow) :
      Enters place .mapped lexemes .expression (advance middle)
  | full {lexemes : List Lexeme}
      (names : ∀ parameters middle,
        Parameters parameters lexemes middle → peek middle ≠ .arrow) :
      Enters place .mapped lexemes .expression lexemes
  | step (lexemes : List Lexeme) : Enters place .path lexemes (.key false) lexemes
  | steps {lexemes behind : List Lexeme} {step : String}
      (first : parseKey false lexemes = .ok (step, behind)) :
      Enters place .path lexemes .steps behind
  | dot {lexemes : List Lexeme} (touches : adjacent lexemes = true) (dot : peek lexemes = .dot)
      (follows : adjacent (advance lexemes) = true) :
      Enters place .steps lexemes (.key true) (advance lexemes)
  | behindKey {lexemes behind : List Lexeme} {step : String} (touches : adjacent lexemes = true)
      (dot : peek lexemes = .dot) (follows : adjacent (advance lexemes) = true)
      (first : parseKey true (advance lexemes) = .ok (step, behind)) :
      Enters place .steps lexemes .steps behind
  | bracket {lexemes : List Lexeme} (touches : adjacent lexemes = true)
      (bracket : peek lexemes = .leftBracket) :
      Enters place .steps lexemes .index (advance lexemes)
  | behindIndex {lexemes behind : List Lexeme} {step : String} (touches : adjacent lexemes = true)
      (bracket : peek lexemes = .leftBracket)
      (first : parseIndex (advance lexemes) = .ok (step, behind)) :
      Enters place .steps lexemes .steps behind
  | keyIndex {lexemes : List Lexeme} {afterDot : Bool} (bracket : peek lexemes = .leftBracket) :
      Enters place (.key afterDot) lexemes .index (advance lexemes)
  | name {lexemes : List Lexeme} {name : String} (word : peek lexemes = .identifier name)
      (comma : peek (advance lexemes) = .comma) :
      Enters place .parameters lexemes .parameters (advance (advance lexemes))

/-- Reading a part comes to a token that must not stand there. It is the first of the last
lexemes. -/
inductive Misses (place : List String) : Part → List Lexeme → ParseFault → List Lexeme → Prop where
  | colon {lexemes middle behind : List Lexeme} {condition consequence : Expression}
      (first : Reads place (.chain .fallback condition) lexemes middle)
      (question : peek middle = .question)
      (second : Reads place (.expression consequence) (advance middle) behind)
      (colon : peek behind ≠ .colon) :
      Misses place .conditional lexemes (.expected .conditional .colon (peek behind)) behind
  | comma {lexemes middle : List Lexeme} {enclosure : Enclosure} {entry : Expression}
      (first : Reads place (.expression entry) lexemes middle)
      (close : peek middle ≠ enclosure.close) (comma : peek middle ≠ .comma) :
      Misses place (.entries enclosure) lexemes (.expected enclosure.rule .comma (peek middle))
        middle
  | parenthesis {lexemes middle : List Lexeme} {inner : Expression}
      (parenthesis : peek lexemes = .leftParenthesis)
      (first : Reads place (.expression inner) (advance lexemes) middle)
      (close : peek middle ≠ .rightParenthesis) :
      Misses place .primary lexemes (.expected .grouping .rightParenthesis (peek middle)) middle
  | rootKey {lexemes : List Lexeme} (dot : peek lexemes = .dot)
      (touches : adjacent (advance lexemes) = false) :
      Misses place .primary lexemes .expectedKeyAfterDot (advance lexemes)
  | operand {lexemes : List Lexeme}
      (operand : startsOperand (peek lexemes) = false ∨ peek lexemes = .bang) :
      Misses place .primary lexemes (.unexpected .primary (peek lexemes)) lexemes
  | bar {lexemes : List Lexeme} (bars : peek lexemes ≠ .fallback) (bar : peek lexemes ≠ .pipe) :
      Misses place .lambda lexemes (.expected .lambda .pipe (peek lexemes)) lexemes
  | bareArrow {lexemes : List Lexeme} (bars : peek lexemes = .fallback)
      (arrow : peek (advance lexemes) ≠ .arrow) :
      Misses place .lambda lexemes (.expected .lambda .arrow (peek (advance lexemes)))
        (advance lexemes)
  | namedArrow {lexemes middle : List Lexeme} {parameters : List String}
      (bar : peek lexemes = .pipe) (names : Parameters parameters (advance lexemes) middle)
      (arrow : peek middle ≠ .arrow) :
      Misses place .lambda lexemes (.expected .lambda .arrow (peek middle)) middle
  | mappingBar {lexemes middle : List Lexeme} {collection : Expression}
      (first : Reads place (.expression collection) lexemes middle) (bar : peek middle ≠ .pipe) :
      Misses place .mapping lexemes (.expected .mapping .pipe (peek middle)) middle
  | mappingBracket {lexemes middle behind : List Lexeme} {collection function : Expression}
      (first : Reads place (.expression collection) lexemes middle) (bar : peek middle = .pipe)
      (second : Reads place (.mapped function) (advance middle) behind)
      (close : peek behind ≠ .rightBracket) :
      Misses place .mapping lexemes (.expected .mapping .rightBracket (peek behind)) behind
  | number {lexemes : List Lexeme} (number : ∀ index, peek lexemes ≠ .integer index) :
      Misses place .index lexemes .expectedIndex lexemes
  | indexBracket {lexemes : List Lexeme} {index : Int64} (number : peek lexemes = .integer index)
      (close : peek (advance lexemes) ≠ .rightBracket) :
      Misses place .index lexemes (.expected .index .rightBracket (peek (advance lexemes)))
        (advance lexemes)
  | key {lexemes : List Lexeme} {afterDot : Bool}
      (word : ∀ name, peek lexemes ≠ .identifier name)
      (number : ∀ index, peek lexemes = .integer index → afterDot ≠ true)
      (bracket : peek lexemes ≠ .leftBracket) :
      Misses place (.key afterDot) lexemes (.expectedKey (peek lexemes)) lexemes
  | parameter {lexemes : List Lexeme} (word : ∀ name, peek lexemes ≠ .identifier name) :
      Misses place .parameters lexemes (.expectedParameter (peek lexemes)) lexemes
  | separator {lexemes : List Lexeme} {name : String} (word : peek lexemes = .identifier name)
      (comma : peek (advance lexemes) ≠ .comma) (bar : peek (advance lexemes) ≠ .pipe) :
      Misses place .parameters lexemes (.expectedSeparator (peek (advance lexemes)))
        (advance lexemes)

/-- Reading a part comes to a token that must not stand where it does, and has this fault. -/
inductive Refuses (place : List String) : Part → List Lexeme → ParseFault → List Lexeme → Prop where
  | here {part : Part} {lexemes rest : List Lexeme} {fault : ParseFault}
      (misses : Misses place part lexemes fault rest) : Refuses place part lexemes fault rest
  | inside {part inner : Part} {lexemes behind rest : List Lexeme} {fault : ParseFault}
      (enters : Enters place part lexemes inner behind)
      (refuses : Refuses place inner behind fault rest) : Refuses place part lexemes fault rest

/-- The message shows the refused token. -/
theorem Refuses.shown {place : List String} {part : Part} {lexemes rest : List Lexeme}
    {fault : ParseFault} (refuses : Refuses place part lexemes fault rest) :
    ∀ shown ∈ fault.shown, shown = peek rest := by
  induction refuses with
  | here misses =>
      intro shown member
      cases misses <;> cases member <;> rfl
  | inside _ _ induction => exact induction

/-! ## A grammar function that fails refuses a token -/

/-- The grammar function of a part stops, at this depth. -/
def Part.Stops (place : List String) (depth : Nat) (lexemes : List Lexeme) (stop : Stop) :
    Part → Prop
  | .expression => parseExpression place depth lexemes = .error stop
  | .conditional => parseConditional place depth lexemes = .error stop
  | .chain level => parseChain place depth level lexemes = .error stop
  | .chainRest level left => parseChainRest place depth level left lexemes = .error stop
  | .operand level => parseOperand place depth level lexemes = .error stop
  | .unary => parseUnary place depth lexemes = .error stop
  | .calls function => parseCalls place depth function lexemes = .error stop
  | .separated enclosure =>
      parseSeparated place depth enclosure.close enclosure.rule lexemes = .error stop
  | .entries enclosure =>
      parseEntries place depth enclosure.close enclosure.rule lexemes = .error stop
  | .primary => parsePrimary place depth lexemes = .error stop
  | .lambda => parseLambda place depth lexemes = .error stop
  | .mapping => parseMapping place depth lexemes = .error stop
  | .mapped => parseMapped place depth lexemes = .error stop
  | .path => parsePath depth lexemes = .error stop
  | .steps => parseSteps depth lexemes = .error stop
  | .key afterDot => parseKey afterDot lexemes = .error stop
  | .index => parseIndex lexemes = .error stop
  | .parameters => parseParameters depth lexemes = .error stop

/-- The depth that a part needs beyond sixteen for each lexeme. -/
def Part.rank : Part → Nat
  | .expression => 15
  | .conditional => 14
  | .chain level | .chainRest level _ => level.rank + 1
  | .operand level => level.rank
  | .unary => 3
  | .primary | .calls _ => 2
  | .separated _ => 17
  | .entries _ | .lambda | .mapping | .mapped => 16
  | .path | .steps | .key _ | .index | .parameters => 1

/-- A stop because of a refused token. -/
def Refused (place : List String) (part : Part) (lexemes : List Lexeme) (stop : Stop) : Prop :=
  ∃ fault rest, stop = .fault (fault.raisedAt rest) ∧ Refuses place part lexemes fault rest

theorem Refused.inside {place : List String} {part inner : Part} {lexemes behind : List Lexeme}
    {stop : Stop} (refused : Refused place inner behind stop)
    (enters : Enters place part lexemes inner behind) : Refused place part lexemes stop := by
  rcases refused with ⟨fault, rest, same, refuses⟩
  exact ⟨fault, rest, same, .inside enters refuses⟩

theorem Misses.refused {place : List String} {part : Part} {lexemes rest : List Lexeme}
    {fault : ParseFault} (misses : Misses place part lexemes fault rest) :
    Refused place part lexemes (.fault (fault.raisedAt rest)) :=
  ⟨fault, rest, rfl, .here misses⟩

/-- At this depth a grammar function stops only because of a refused token, if the depth suffices
for it. -/
def Refusing (place : List String) (depth : Nat) : Prop :=
  ∀ (part : Part) {lexemes : List Lexeme} {stop : Stop}, Ended lexemes →
    16 * lexemes.length + part.rank ≤ depth → part.Stops place depth lexemes stop →
      Refused place part lexemes stop

/-- A part behind lexemes that were stepped over has sixteen more for each of them. -/
theorem Refusing.behind {place : List String} {depth : Nat} (below : Refusing place depth)
    (part : Part) {origin lexemes : List Lexeme} {least : Nat} {stop : Stop}
    (behind : Behind origin least lexemes)
    (enough : 16 * origin.length + part.rank ≤ depth + 16 * least)
    (stops : part.Stops place depth lexemes stop) : Refused place part lexemes stop :=
  below part behind.ended (by have := behind.shorter; omega) stops

end Grammar

theorem error_of_bind {α β ε : Type} {first : Except ε α} {next : α → Except ε β} {cause : ε}
    (stops : (first >>= next) = .error cause) :
    first = .error cause ∨ ∃ value, first = .ok value ∧ next value = .error cause := by
  cases first with
  | error found =>
      cases stops
      exact .inl rfl
  | ok value => exact .inr ⟨value, rfl, stops⟩

theorem expect_eq_error {wanted : Token} {rule : Rule} {lexemes : List Lexeme} {stop : Stop}
    (stops : expect wanted rule lexemes = .error stop) :
    peek lexemes ≠ wanted ∧
      stop = .fault ((ParseFault.expected rule wanted (peek lexemes)).raisedAt lexemes) := by
  unfold expect at stops
  split at stops
  · cases stops
  · rename_i other
    cases stops
    exact ⟨other, rfl⟩

end Stencil
