import Stencil.Expression.Basic
import Stencil.Expression.Scan

namespace Stencil

/-! The parser reads a list of lexemes whose last one marks the end. Reading on
from the end stays at the end. -/

namespace Lexemes

def current : List Lexeme → Lexeme
  | [] => ⟨.finish, .start, false⟩
  | lexeme :: _ => lexeme

def peek (lexemes : List Lexeme) : Token := (current lexemes).token

/-- The current token directly follows the one before it. -/
def adjacent (lexemes : List Lexeme) : Bool := !(current lexemes).spaced

def advance : List Lexeme → List Lexeme
  | _ :: lexeme :: rest => lexeme :: rest
  | lexemes => lexemes

end Lexemes

open Lexemes

/-! A grammar function stops at a fault, or when its recursion depth is used up;
the depth that `parse` grants is enough for every source. -/

inductive Stop where
  | fault (error : ParseError)
  | depth

/-- What was read, and the lexemes that are left. -/
abbrev Reading (α : Type) := α × List Lexeme

/-- A fault at the current lexeme. -/
def faultAt {α : Type} (lexemes : List Lexeme) (fault : ParseFault) : Except Stop α :=
  .error (.fault ⟨fault, (current lexemes).position⟩)

/-- Step over the wanted token. -/
def expect (wanted : Token) (rule : Rule) (lexemes : List Lexeme) :
    Except Stop (List Lexeme) :=
  if peek lexemes = wanted then .ok (advance lexemes)
  else faultAt lexemes (.expected rule wanted (peek lexemes))

/-- The token may start an operand of a concatenation. -/
def startsOperand : Token → Bool
  | .integer _ | .text _ | .identifier _ | .leftParenthesis | .leftBracket | .dot | .bang => true
  | _ => false

/-! The levels of the binary operators, from the loosest to the tightest. All of
them associate to the left. -/

inductive Level where
  | fallback
  | logical
  | comparison
  | additive
  | multiplicative
deriving DecidableEq, Repr

namespace Level

def tighter : Level → Option Level
  | .fallback => some .logical
  | .logical => some .comparison
  | .comparison => some .additive
  | .additive => some .multiplicative
  | .multiplicative => none

/-- The operator that a token stands for at a level. A token that starts an
operand stands for concatenation at the additive level. -/
def operator? : Level → Token → Option Operator
  | .fallback, .fallback => some .fallback
  | .logical, .and => some .and
  | .logical, .or => some .or
  | .comparison, .equal => some .equal
  | .comparison, .notEqual => some .notEqual
  | .comparison, .less => some .less
  | .comparison, .lessOrEqual => some .lessOrEqual
  | .comparison, .greater => some .greater
  | .comparison, .greaterOrEqual => some .greaterOrEqual
  | .additive, .plus => some .add
  | .additive, .minus => some .subtract
  | .additive, token => if startsOperand token then some .concatenation else none
  | .multiplicative, .star => some .multiply
  | .multiplicative, .slash => some .divide
  | .multiplicative, .percent => some .modulo
  | _, _ => none

end Level

/-! Paths: a key, then further keys behind dots and indices in brackets, all
without white space between them. An index step is written with its brackets. -/

def indexStep (index : Int64) : String :=
  "[" ++ toString index.toInt ++ "]"

/-- The step behind an opening bracket. -/
def parseIndex (lexemes : List Lexeme) : Except Stop (Reading String) :=
  match peek lexemes with
  | .integer index => do
      let lexemes ← expect .rightBracket .index (advance lexemes)
      return (indexStep index, lexemes)
  | _ => faultAt (advance lexemes) .expectedIndex

/-- The step behind a dot, or at the start of a path. Only behind a dot may it
be a bare number. -/
def parseKey (afterDot : Bool) (lexemes : List Lexeme) : Except Stop (Reading String) :=
  match peek lexemes, afterDot with
  | .identifier name, _ => .ok (name, advance lexemes)
  | .integer index, true => .ok (indexStep index, advance lexemes)
  | .leftBracket, _ => parseIndex (advance lexemes)
  | found, _ => faultAt (advance lexemes) (.expectedKey found)

/-- The steps behind the first one. -/
def parseSteps : Nat → List Lexeme → Except Stop (Reading (List String))
  | 0, _ => .error .depth
  | depth + 1, lexemes =>
      if adjacent lexemes then
        match peek lexemes with
        | .dot =>
            if adjacent (advance lexemes) then do
              let (step, lexemes) ← parseKey true (advance lexemes)
              let (steps, lexemes) ← parseSteps depth lexemes
              return (step :: steps, lexemes)
            else .ok ([], lexemes)
        | .leftBracket => do
            let (step, lexemes) ← parseIndex (advance lexemes)
            let (steps, lexemes) ← parseSteps depth lexemes
            return (step :: steps, lexemes)
        | _ => .ok ([], lexemes)
      else .ok ([], lexemes)

def parsePath (depth : Nat) (lexemes : List Lexeme) : Except Stop (Reading (List String)) := do
  let (step, lexemes) ← parseKey false lexemes
  let (steps, lexemes) ← parseSteps depth lexemes
  return (step :: steps, lexemes)

/-- Parameter names up to and including the closing bar. -/
def parseParameters : Nat → List Lexeme → Except Stop (Reading (List String))
  | 0, _ => .error .depth
  | depth + 1, lexemes =>
      match peek lexemes with
      | .identifier name =>
          let lexemes := advance lexemes
          match peek lexemes with
          | .comma => do
              let (names, lexemes) ← parseParameters depth (advance lexemes)
              return (name :: names, lexemes)
          | .pipe => .ok ([name], advance lexemes)
          | found => faultAt (advance lexemes) (.expectedSeparator found)
      | found => faultAt (advance lexemes) (.expectedParameter found)

/-- The rest of a `merge`. Without a path of its own it takes the given one. -/
def parseMerge (place : List String) (depth : Nat) (lexemes : List Lexeme) :
    Except Stop (Reading Expression) :=
  let replacing := peek lexemes = .identifier "replace"
  let lexemes := if replacing then advance lexemes else lexemes
  match peek lexemes with
  | .identifier _ => do
      let (path, lexemes) ← parsePath depth lexemes
      return (.merge path true replacing, lexemes)
  | _ => .ok (.merge place false replacing, lexemes)

/-! The grammar. `place` is the document path that `merge` and `auto` take. -/

mutual
def parseExpression (place : List String) : Nat → List Lexeme → Except Stop (Reading Expression)
  | 0, _ => .error .depth
  | depth + 1, lexemes =>
      let next := peek (advance lexemes)
      if peek lexemes = .identifier "prefer" ∧ (startsOperand next ∨ next = .minus) then do
        let (inner, lexemes) ← parseConditional place depth (advance lexemes)
        return (.prefer inner, lexemes)
      else parseConditional place depth lexemes

def parseConditional (place : List String) : Nat → List Lexeme → Except Stop (Reading Expression)
  | 0, _ => .error .depth
  | depth + 1, lexemes => do
      let (condition, lexemes) ← parseChain place depth .fallback lexemes
      if peek lexemes = .question then
        let (consequence, lexemes) ← parseExpression place depth (advance lexemes)
        let lexemes ← expect .colon .conditional lexemes
        let (alternative, lexemes) ← parseExpression place depth lexemes
        return (.conditional condition consequence alternative, lexemes)
      else return (condition, lexemes)

/-- Operands of one level with the operators of that level between them. -/
def parseChain (place : List String) : Nat → Level → List Lexeme → Except Stop (Reading Expression)
  | 0, _, _ => .error .depth
  | depth + 1, level, lexemes => do
      let (left, lexemes) ← parseOperand place depth level lexemes
      parseChainRest place depth level left lexemes

def parseChainRest (place : List String) :
    Nat → Level → Expression → List Lexeme → Except Stop (Reading Expression)
  | 0, _, _, _ => .error .depth
  | depth + 1, level, left, lexemes =>
      match level.operator? (peek lexemes) with
      | none => .ok (left, lexemes)
      | some operator => do
          let behind := if operator = .concatenation then lexemes else advance lexemes
          let (right, lexemes) ← parseOperand place depth level behind
          parseChainRest place depth level (.binary operator left right) lexemes

def parseOperand (place : List String) :
    Nat → Level → List Lexeme → Except Stop (Reading Expression)
  | 0, _, _ => .error .depth
  | depth + 1, level, lexemes =>
      match level.tighter with
      | some level => parseChain place depth level lexemes
      | none => parseUnary place depth lexemes

/-- A minus with a number directly behind it is a negative number; any other
minus subtracts its operand from zero. -/
def parseUnary (place : List String) : Nat → List Lexeme → Except Stop (Reading Expression)
  | 0, _ => .error .depth
  | depth + 1, lexemes =>
      match peek lexemes with
      | .bang => do
          let (operand, lexemes) ← parseUnary place depth (advance lexemes)
          return (.not operand, lexemes)
      | .minus =>
          let behind := advance lexemes
          match peek behind, adjacent behind with
          | .integer value, true => .ok (.integer (-value), advance behind)
          | _, _ => do
              let (operand, lexemes) ← parseUnary place depth behind
              return (.binary .subtract (.integer 0) operand, lexemes)
      | _ => do
          let (function, lexemes) ← parsePrimary place depth lexemes
          parseCalls place depth function lexemes

/-- Argument lists directly behind the function. -/
def parseCalls (place : List String) :
    Nat → Expression → List Lexeme → Except Stop (Reading Expression)
  | 0, _, _ => .error .depth
  | depth + 1, function, lexemes =>
      if peek lexemes = .leftParenthesis ∧ adjacent lexemes = true then do
        let (arguments, lexemes) ←
          parseSeparated place depth .rightParenthesis .call (advance lexemes)
        parseCalls place depth (.call function arguments) lexemes
      else .ok (function, lexemes)

/-- Expressions with commas between them, up to and including the closing token. -/
def parseSeparated (place : List String) :
    Nat → Token → Rule → List Lexeme → Except Stop (Reading (List Expression))
  | 0, _, _, _ => .error .depth
  | depth + 1, close, rule, lexemes =>
      if peek lexemes = close then .ok ([], advance lexemes)
      else parseEntries place depth close rule lexemes

def parseEntries (place : List String) :
    Nat → Token → Rule → List Lexeme → Except Stop (Reading (List Expression))
  | 0, _, _, _ => .error .depth
  | depth + 1, close, rule, lexemes => do
      let (entry, lexemes) ← parseExpression place depth lexemes
      if peek lexemes = close then return ([entry], advance lexemes)
      else
        let lexemes ← expect .comma rule lexemes
        let (entries, lexemes) ← parseEntries place depth close rule lexemes
        return (entry :: entries, lexemes)

def parsePrimary (place : List String) : Nat → List Lexeme → Except Stop (Reading Expression)
  | 0, _ => .error .depth
  | depth + 1, lexemes =>
      let behind := advance lexemes
      match peek lexemes with
      | .integer value => .ok (.integer value, behind)
      | .text value => .ok (.text value, behind)
      | .leftParenthesis => do
          let (inner, lexemes) ← parseExpression place depth behind
          let lexemes ← expect .rightParenthesis .grouping lexemes
          return (.group inner, lexemes)
      | .leftBracket => do
          let (entries, lexemes) ←
            parseSeparated place depth .rightBracket .list behind
          return (.list entries, lexemes)
      | .dot =>
          if adjacent behind then do
            let (path, lexemes) ← parsePath depth behind
            return (.reference ("" :: path), lexemes)
          else faultAt behind .expectedKeyAfterDot
      | .identifier "nil" => .ok (.nil, behind)
      | .identifier "true" => .ok (.boolean true, behind)
      | .identifier "false" => .ok (.boolean false, behind)
      | .identifier "merge" => parseMerge place depth behind
      | .identifier "auto" => .ok (.auto place, behind)
      | .identifier name =>
          if name = "lambda" ∧ (peek behind = .pipe ∨ peek behind = .fallback) then
            parseLambda place depth behind
          else if name = "map" ∧ peek behind = .leftBracket ∧ adjacent behind = true then
            parseMapping place depth (advance behind)
          else do
            let (path, lexemes) ← parsePath depth lexemes
            return (.reference path, lexemes)
      | found => faultAt lexemes (.unexpected .primary found)

/-- A lambda from its opening bar on. Two bars in a row are an empty parameter list. -/
def parseLambda (place : List String) : Nat → List Lexeme → Except Stop (Reading Expression)
  | 0, _ => .error .depth
  | depth + 1, lexemes => do
      let (parameters, lexemes) ←
        if peek lexemes = .fallback then .ok ([], advance lexemes)
        else do
          let lexemes ← expect .pipe .lambda lexemes
          parseParameters depth lexemes
      let lexemes ← expect .arrow .lambda lexemes
      let (body, lexemes) ← parseExpression place depth lexemes
      return (.lambda parameters body, lexemes)

/-- A mapping from behind its opening bracket on. When no parameter list and
arrow follow the bar, an expression does. -/
def parseMapping (place : List String) : Nat → List Lexeme → Except Stop (Reading Expression)
  | 0, _ => .error .depth
  | depth + 1, lexemes => do
      let (collection, lexemes) ← parseExpression place depth lexemes
      let lexemes ← expect .pipe .mapping lexemes
      let (function, lexemes) ← parseMapped place depth lexemes
      let lexemes ← expect .rightBracket .mapping lexemes
      return (.mapping collection function, lexemes)

def parseMapped (place : List String) : Nat → List Lexeme → Except Stop (Reading Expression)
  | 0, _ => .error .depth
  | depth + 1, lexemes =>
      match parseParameters depth lexemes with
      | .error .depth => .error .depth
      | .error (.fault _) => parseExpression place depth lexemes
      | .ok (parameters, behind) =>
          if peek behind = .arrow then do
            let (body, lexemes) ← parseExpression place depth (advance behind)
            return (.lambda parameters body, lexemes)
          else parseExpression place depth lexemes
end

/-- A bound on the recursion depth: between two tokens that are stepped over,
at most sixteen grammar functions call each other. -/
def parsingDepth (lexemes : List Lexeme) : Nat :=
  16 * (lexemes.length + 1)

/-- Read a whole list of lexemes as one expression. -/
def parseLexemes (place : List String) (lexemes : List Lexeme) :
    Except ParseError Expression :=
  match parseExpression place (parsingDepth lexemes) lexemes with
  | .error (.fault error) => .error error
  | .error .depth => .error ⟨.nestedTooDeeply, .start⟩
  | .ok (expression, rest) =>
      if peek rest = .finish then .ok expression
      else .error ⟨.unexpected .expression (peek rest), (current rest).position⟩

/-- Read the source of an expression that stands at a path of the document. -/
def Expression.parse (source : String) (place : List String) : Except ParseError Expression := do
  let lexemes ← scan source
  parseLexemes place lexemes

end Stencil
