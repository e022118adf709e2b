import Mathlib
import Stencil.Expression.Parse
import Stencil.Proofs.Evaluation.Precedence

namespace Stencil

open Lexemes

/-! The grammar as derivations, without a bound on the depth. A derivation reads a phrase
from some lexemes and leaves others. There is one rule for each way through a grammar
function, with the looks ahead that choose it, so the phrase that is read from a list of
lexemes is unique. -/

namespace Grammar

/-! Paths. -/

/-- The path before these lexemes goes on with them. -/
def continuesPath (lexemes : List Lexeme) : Prop :=
  adjacent lexemes = true ∧
    (peek lexemes = .leftBracket ∨ peek lexemes = .dot ∧ adjacent (advance lexemes) = true)

inductive Steps : List String → List Lexeme → List Lexeme → Prop where
  | key {lexemes behind rest : List Lexeme} {step : String} {steps : List String}
      (touches : adjacent lexemes = true) (dot : peek lexemes = .dot)
      (follows : adjacent (advance lexemes) = true)
      (first : parseKey true (advance lexemes) = .ok (step, behind))
      (others : Steps steps behind rest) : Steps (step :: steps) lexemes rest
  | index {lexemes behind rest : List Lexeme} {step : String} {steps : List String}
      (touches : adjacent lexemes = true) (bracket : peek lexemes = .leftBracket)
      (first : parseIndex (advance lexemes) = .ok (step, behind))
      (others : Steps steps behind rest) : Steps (step :: steps) lexemes rest
  | halt {lexemes : List Lexeme} (halt : ¬ continuesPath lexemes) : Steps [] lexemes lexemes

inductive Path : List String → List Lexeme → List Lexeme → Prop where
  | path {lexemes behind rest : List Lexeme} {step : String} {steps : List String}
      (first : parseKey false lexemes = .ok (step, behind))
      (others : Steps steps behind rest) : Path (step :: steps) lexemes rest

/-! Parameter lists. -/

inductive Parameters : List String → List Lexeme → List Lexeme → Prop where
  | last {lexemes : List Lexeme} {name : String} (word : peek lexemes = .identifier name)
      (bar : peek (advance lexemes) = .pipe) :
      Parameters [name] lexemes (advance (advance lexemes))
  | more {lexemes rest : List Lexeme} {name : String} {names : List String}
      (word : peek lexemes = .identifier name) (comma : peek (advance lexemes) = .comma)
      (others : Parameters names (advance (advance lexemes)) rest) :
      Parameters (name :: names) lexemes rest

/-! Expressions between commas, as the arguments of a call or as the entries of a list. -/

inductive Enclosure where
  | arguments
  | entries

namespace Enclosure

def close : Enclosure → Token
  | .arguments => .rightParenthesis
  | .entries => .rightBracket

def rule : Enclosure → Rule
  | .arguments => .call
  | .entries => .list

end Enclosure

/-- What a grammar function reads, with the part of it that was read before. -/
inductive Phrase where
  | expression (read : Expression)
  | conditional (read : Expression)
  | chain (level : Level) (read : Expression)
  | chainRest (level : Level) (left read : Expression)
  | operand (level : Level) (read : Expression)
  | unary (read : Expression)
  | calls (function read : Expression)
  | separated (enclosure : Enclosure) (read : List Expression)
  | entries (enclosure : Enclosure) (read : List Expression)
  | primary (read : Expression)
  | lambda (read : Expression)
  | mapping (read : Expression)
  | mapped (read : Expression)

/-- A `prefer` that marks what follows it, and is no key. -/
def startsPreferred (lexemes : List Lexeme) : Prop :=
  peek lexemes = .identifier "prefer" ∧
    (startsOperand (peek (advance lexemes)) = true ∨ peek (advance lexemes) = .minus)

/-- A `lambda` with its parameter list, and no key. -/
def startsLambda (lexemes : List Lexeme) : Prop :=
  peek lexemes = .identifier "lambda" ∧
    (peek (advance lexemes) = .pipe ∨ peek (advance lexemes) = .fallback)

/-- A `map` with its collection, and no key. -/
def startsMapping (lexemes : List Lexeme) : Prop :=
  peek lexemes = .identifier "map" ∧ peek (advance lexemes) = .leftBracket ∧
    adjacent (advance lexemes) = true

/-- A minus sign of a number. -/
def startsNegative (lexemes : List Lexeme) : Prop :=
  (∃ value, peek (advance lexemes) = .integer value) ∧ adjacent (advance lexemes) = true

/-- Words that are expressions and not keys. -/
def reserved : List String := ["nil", "true", "false", "merge", "auto"]

/-- The lexemes behind the word `replace`, if it stands here. -/
def behindReplace (lexemes : List Lexeme) : List Lexeme :=
  if peek lexemes = .identifier "replace" then advance lexemes else lexemes

inductive Reads (place : List String) : Phrase → List Lexeme → List Lexeme → Prop where
  | preferred {lexemes rest : List Lexeme} {inner : Expression}
      (starts : startsPreferred lexemes)
      (reads : Reads place (.conditional inner) (advance lexemes) rest) :
      Reads place (.expression (.prefer inner)) lexemes rest
  | expression {lexemes rest : List Lexeme} {read : Expression}
      (starts : ¬ startsPreferred lexemes)
      (reads : Reads place (.conditional read) lexemes rest) :
      Reads place (.expression read) lexemes rest
  | conditional {lexemes middle behind rest : List Lexeme}
      {condition consequence alternative : Expression}
      (first : Reads place (.chain .fallback condition) lexemes middle)
      (question : peek middle = .question)
      (second : Reads place (.expression consequence) (advance middle) behind)
      (colon : peek behind = .colon)
      (third : Reads place (.expression alternative) (advance behind) rest) :
      Reads place (.conditional (.conditional condition consequence alternative)) lexemes rest
  | unconditional {lexemes rest : List Lexeme} {read : Expression}
      (reads : Reads place (.chain .fallback read) lexemes rest)
      (question : peek rest ≠ .question) :
      Reads place (.conditional read) lexemes rest
  | chain {lexemes middle rest : List Lexeme} {level : Level} {left read : Expression}
      (first : Reads place (.operand level left) lexemes middle)
      (others : Reads place (.chainRest level left read) middle rest) :
      Reads place (.chain level read) lexemes rest
  | chainOver {lexemes : List Lexeme} {level : Level} {left : Expression}
      (halt : level.operator? (peek lexemes) = none) :
      Reads place (.chainRest level left left) lexemes lexemes
  | chainMore {lexemes middle rest : List Lexeme} {level : Level} {operator : Operator}
      {left right read : Expression}
      (sign : level.operator? (peek lexemes) = some operator)
      (next : Reads place (.operand level right)
        (if operator = .concatenation then lexemes else advance lexemes) middle)
      (others : Reads place (.chainRest level (.binary operator left right) read) middle rest) :
      Reads place (.chainRest level left read) lexemes rest
  | tighter {lexemes rest : List Lexeme} {level tighter : Level} {read : Expression}
      (below : level.tighter = some tighter)
      (reads : Reads place (.chain tighter read) lexemes rest) :
      Reads place (.operand level read) lexemes rest
  | tightest {lexemes rest : List Lexeme} {level : Level} {read : Expression}
      (below : level.tighter = none)
      (reads : Reads place (.unary read) lexemes rest) :
      Reads place (.operand level read) lexemes rest
  | not {lexemes rest : List Lexeme} {operand : Expression}
      (bang : peek lexemes = .bang)
      (reads : Reads place (.unary operand) (advance lexemes) rest) :
      Reads place (.unary (.not operand)) lexemes rest
  | negative {lexemes : List Lexeme} {value : Int64}
      (minus : peek lexemes = .minus)
      (number : peek (advance lexemes) = .integer value)
      (touches : adjacent (advance lexemes) = true) :
      Reads place (.unary (.integer (-value))) lexemes (advance (advance lexemes))
  | minus {lexemes rest : List Lexeme} {operand : Expression}
      (minus : peek lexemes = .minus) (number : ¬ startsNegative lexemes)
      (reads : Reads place (.unary operand) (advance lexemes) rest) :
      Reads place (.unary (.binary .subtract (.integer 0) operand)) lexemes rest
  | applied {lexemes middle rest : List Lexeme} {function read : Expression}
      (bang : peek lexemes ≠ .bang) (minus : peek lexemes ≠ .minus)
      (first : Reads place (.primary function) lexemes middle)
      (others : Reads place (.calls function read) middle rest) :
      Reads place (.unary read) lexemes rest
  | called {lexemes middle rest : List Lexeme} {function read : Expression}
      {arguments : List Expression}
      (parenthesis : peek lexemes = .leftParenthesis) (touches : adjacent lexemes = true)
      (inside : Reads place (.separated .arguments arguments) (advance lexemes) middle)
      (others : Reads place (.calls (.call function arguments) read) middle rest) :
      Reads place (.calls function read) lexemes rest
  | callsOver {lexemes : List Lexeme} {function : Expression}
      (halt : ¬ (peek lexemes = .leftParenthesis ∧ adjacent lexemes = true)) :
      Reads place (.calls function function) lexemes lexemes
  | nothing {lexemes : List Lexeme} {enclosure : Enclosure}
      (close : peek lexemes = enclosure.close) :
      Reads place (.separated enclosure []) lexemes (advance lexemes)
  | something {lexemes rest : List Lexeme} {enclosure : Enclosure} {read : List Expression}
      (close : peek lexemes ≠ enclosure.close)
      (reads : Reads place (.entries enclosure read) lexemes rest) :
      Reads place (.separated enclosure read) lexemes rest
  | last {lexemes rest : List Lexeme} {enclosure : Enclosure} {entry : Expression}
      (reads : Reads place (.expression entry) lexemes rest)
      (close : peek rest = enclosure.close) :
      Reads place (.entries enclosure [entry]) lexemes (advance rest)
  | more {lexemes middle rest : List Lexeme} {enclosure : Enclosure} {entry : Expression}
      {entries : List Expression}
      (first : Reads place (.expression entry) lexemes middle)
      (comma : peek middle = .comma)
      (others : Reads place (.entries enclosure entries) (advance middle) rest) :
      Reads place (.entries enclosure (entry :: entries)) lexemes rest
  | integer {lexemes : List Lexeme} {value : Int64} (number : peek lexemes = .integer value) :
      Reads place (.primary (.integer value)) lexemes (advance lexemes)
  | text {lexemes : List Lexeme} {value : String} (literal : peek lexemes = .text value) :
      Reads place (.primary (.text value)) lexemes (advance lexemes)
  | group {lexemes rest : List Lexeme} {inner : Expression}
      (parenthesis : peek lexemes = .leftParenthesis)
      (reads : Reads place (.expression inner) (advance lexemes) rest)
      (close : peek rest = .rightParenthesis) :
      Reads place (.primary (.group inner)) lexemes (advance rest)
  | list {lexemes rest : List Lexeme} {entries : List Expression}
      (bracket : peek lexemes = .leftBracket)
      (inside : Reads place (.separated .entries entries) (advance lexemes) rest) :
      Reads place (.primary (.list entries)) lexemes rest
  | root {lexemes rest : List Lexeme} {path : List String}
      (dot : peek lexemes = .dot) (touches : adjacent (advance lexemes) = true)
      (steps : Path path (advance lexemes) rest) :
      Reads place (.primary (.reference ("" :: path))) lexemes rest
  | nil {lexemes : List Lexeme} (word : peek lexemes = .identifier "nil") :
      Reads place (.primary .nil) lexemes (advance lexemes)
  | yes {lexemes : List Lexeme} (word : peek lexemes = .identifier "true") :
      Reads place (.primary (.boolean true)) lexemes (advance lexemes)
  | no {lexemes : List Lexeme} (word : peek lexemes = .identifier "false") :
      Reads place (.primary (.boolean false)) lexemes (advance lexemes)
  | auto {lexemes : List Lexeme} (word : peek lexemes = .identifier "auto") :
      Reads place (.primary (.auto place)) lexemes (advance lexemes)
  | redirected {lexemes rest : List Lexeme} {path : List String} {name : String}
      (word : peek lexemes = .identifier "merge")
      (key : peek (behindReplace (advance lexemes)) = .identifier name)
      (steps : Path path (behindReplace (advance lexemes)) rest) :
      Reads place
        (.primary (.merge path true (peek (advance lexemes) = .identifier "replace")))
        lexemes rest
  | merge {lexemes : List Lexeme} (word : peek lexemes = .identifier "merge")
      (key : ∀ name, peek (behindReplace (advance lexemes)) ≠ .identifier name) :
      Reads place
        (.primary (.merge place false (peek (advance lexemes) = .identifier "replace")))
        lexemes (behindReplace (advance lexemes))
  | lambda {lexemes rest : List Lexeme} {read : Expression} (starts : startsLambda lexemes)
      (reads : Reads place (.lambda read) (advance lexemes) rest) :
      Reads place (.primary read) lexemes rest
  | mapping {lexemes rest : List Lexeme} {read : Expression} (starts : startsMapping lexemes)
      (reads : Reads place (.mapping read) (advance (advance lexemes)) rest) :
      Reads place (.primary read) lexemes rest
  | reference {lexemes rest : List Lexeme} {name : String} {path : List String}
      (word : peek lexemes = .identifier name) (free : name ∉ reserved)
      (lambda : ¬ startsLambda lexemes) (mapping : ¬ startsMapping lexemes)
      (steps : Path path lexemes rest) :
      Reads place (.primary (.reference path)) lexemes rest
  | bare {lexemes rest : List Lexeme} {body : Expression} (bars : peek lexemes = .fallback)
      (arrow : peek (advance lexemes) = .arrow)
      (reads : Reads place (.expression body) (advance (advance lexemes)) rest) :
      Reads place (.lambda (.lambda [] body)) lexemes rest
  | named {lexemes middle rest : List Lexeme} {parameters : List String} {body : Expression}
      (bar : peek lexemes = .pipe)
      (names : Parameters parameters (advance lexemes) middle)
      (arrow : peek middle = .arrow)
      (reads : Reads place (.expression body) (advance middle) rest) :
      Reads place (.lambda (.lambda parameters body)) lexemes rest
  | mappingOf {lexemes middle rest : List Lexeme} {collection function : Expression}
      (first : Reads place (.expression collection) lexemes middle)
      (bar : peek middle = .pipe)
      (second : Reads place (.mapped function) (advance middle) rest)
      (close : peek rest = .rightBracket) :
      Reads place (.mapping (.mapping collection function)) lexemes (advance rest)
  | short {lexemes middle rest : List Lexeme} {parameters : List String} {body : Expression}
      (names : Parameters parameters lexemes middle) (arrow : peek middle = .arrow)
      (reads : Reads place (.expression body) (advance middle) rest) :
      Reads place (.mapped (.lambda parameters body)) lexemes rest
  | full {lexemes rest : List Lexeme} {read : Expression}
      (names : ∀ parameters middle, Parameters parameters lexemes middle → peek middle ≠ .arrow)
      (reads : Reads place (.expression read) lexemes rest) :
      Reads place (.mapped read) lexemes rest

end Grammar

end Stencil
