namespace Stencil.Shell

/-! Scripts of the shell: commands of words and redirections, piped into each
other and run one after the other. -/

inductive Part where
  | literal (text : String)
  | reference (name : String) (quoted : Bool)

abbrev Word := List Part

inductive Redirection where
  | input (file : Word)
  | output (descriptor : Nat) (append : Bool) (file : Word)
  | duplicate (descriptor target : Nat)

structure Command where
  words : List Word := []
  redirections : List Redirection := []

/-- When a pipeline runs, going by the one before it. -/
inductive Condition where
  | always
  | afterSuccess
  | afterFailure

structure Step where
  condition : Condition
  pipeline : List Command

/-- Why a script cannot be read. -/
inductive ScriptFault where
  | unterminated
  | unexpected (text : String)

def ScriptFault.message : ScriptFault → String
  | .unterminated => "Syntax error: Unterminated quoted string"
  | .unexpected text => "Syntax error: " ++ text ++ " unexpected"

/-! Tokens. -/

inductive Token where
  | word (word : Word) (digits : Option Nat)
  | operator (symbol : String)

private def isNameStart (character : Char) : Bool := character.isAlpha || character = '_'

private def isNameRest (character : Char) : Bool := character.isAlphanum || character = '_'

/-- The variable behind a dollar sign, and what follows it. -/
private def readVariable? : List Char → Option (String × List Char)
  | '\x7b' :: rest =>
      let name := rest.takeWhile (· != '\x7d')
      some (.ofList name, (rest.dropWhile (· != '\x7d')).drop 1)
  | character :: rest =>
      if isNameStart character then
        some (.ofList (character :: rest.takeWhile isNameRest), rest.dropWhile isNameRest)
      else if character.isDigit || "$?#".toList.contains character then
        some (character.toString, rest)
      else none
  | [] => none

private def apostrophe : Char := Char.ofNat 39

/-- The parts up to the closing double quote. -/
private def readQuoted : Nat → List Char → Except ScriptFault (Word × List Char)
  | 0, _ => .error .unterminated
  | _, [] => .error .unterminated
  | _ + 1, '"' :: rest => .ok ([], rest)
  | fuel + 1, '\\' :: character :: rest => do
      let (parts, behind) ← readQuoted fuel rest
      let text := if "$\"\\\x60".toList.contains character then character.toString
        else "\\" ++ character.toString
      return (.literal text :: parts, behind)
  | fuel + 1, '$' :: rest =>
      match readVariable? rest with
      | some (name, rest) => do
          let (parts, behind) ← readQuoted fuel rest
          return (.reference name true :: parts, behind)
      | none => do
          let (parts, behind) ← readQuoted fuel rest
          return (.literal "$" :: parts, behind)
  | fuel + 1, character :: rest => do
      let (parts, behind) ← readQuoted fuel rest
      return (.literal character.toString :: parts, behind)

private def endsWord (character : Char) : Bool :=
  character = ' ' || character = '\t' || character = '\n'
    || ";&|<>()".toList.contains character

private def readWord : Nat → List Char → Except ScriptFault (Word × List Char)
  | 0, rest => .ok ([], rest)
  | _, [] => .ok ([], [])
  | fuel + 1, character :: rest =>
      if endsWord character then .ok ([], character :: rest)
      else if character = apostrophe then
        let text := rest.takeWhile (· != apostrophe)
        match rest.dropWhile (· != apostrophe) with
        | [] => .error .unterminated
        | _ :: rest => do
            let (parts, behind) ← readWord fuel rest
            return (.literal (.ofList text) :: parts, behind)
      else if character = '"' then do
        let (quoted, rest) ← readQuoted fuel rest
        let (parts, behind) ← readWord fuel rest
        return (.literal "" :: quoted ++ parts, behind)
      else if character = '\\' then
        match rest with
        | [] => .ok ([.literal "\\"], [])
        | escaped :: rest => do
            let (parts, behind) ← readWord fuel rest
            return (.literal (if escaped = '\n' then "" else escaped.toString) :: parts, behind)
      else
        match (if character = '$' then readVariable? rest else none) with
        | some (name, rest) => do
            let (parts, behind) ← readWord fuel rest
            return (.reference name false :: parts, behind)
        | none => do
            let (parts, behind) ← readWord fuel rest
            return (.literal character.toString :: parts, behind)

private def symbols : List String :=
  ["&&", "||", ">>", ">&", "<&", ";", "&", "|", ">", "<", "(", ")", "\n"]

private def readTokens : Nat → List Char → Except ScriptFault (List Token)
  | 0, _ => .ok []
  | _, [] => .ok []
  | fuel + 1, character :: rest =>
      if character = ' ' || character = '\t' then readTokens fuel rest
      else if character = '#' then readTokens fuel (rest.dropWhile (· != '\n'))
      else
        match symbols.find? fun symbol => symbol.toList.isPrefixOf (character :: rest) with
        | some symbol => do
            return .operator symbol :: (← readTokens fuel ((character :: rest).drop symbol.length))
        | none => do
            let (word, behind) ← readWord (rest.length + 2) (character :: rest)
            let length := rest.length + 1 - behind.length
            let text := (character :: rest).take length
            let digits := if text.all Char.isDigit then (String.ofList text).toNat? else none
            let redirecting := behind.head? = some '<' || behind.head? = some '>'
            return .word word (if redirecting then digits else none) :: (← readTokens fuel behind)

/-! Commands. -/

private def redirection? (descriptor : Option Nat) : List Token →
    Option (Except ScriptFault (Redirection × List Token))
  | .operator ">" :: .word file _ :: rest =>
      some (.ok (.output (descriptor.getD 1) false file, rest))
  | .operator ">>" :: .word file _ :: rest =>
      some (.ok (.output (descriptor.getD 1) true file, rest))
  | .operator "<" :: .word file _ :: rest => some (.ok (.input file, rest))
  | .operator ">&" :: .word [.literal target] _ :: rest =>
      some (match target.toNat? with
        | some target => .ok (.duplicate (descriptor.getD 1) target, rest)
        | none => .error (.unexpected "redirection"))
  | .operator symbol :: .operator next :: _ =>
      if [">", ">>", "<", ">&", "<&"].contains symbol then
        some (.error (.unexpected (if next = "\n" then "newline" else "\"" ++ next ++ "\"")))
      else none
  | [.operator symbol] =>
      if [">", ">>", "<", ">&", "<&"].contains symbol then
        some (.error (.unexpected "end of file"))
      else none
  | _ => none

private def readCommand : Nat → List Token → Except ScriptFault (Command × List Token)
  | 0, tokens => .ok ({}, tokens)
  | fuel + 1, tokens =>
      match redirection? none tokens with
      | some result => do
          let (redirection, rest) ← result
          let (command, rest) ← readCommand fuel rest
          return ({ command with redirections := redirection :: command.redirections }, rest)
      | none =>
          match tokens with
          | .word _ (some descriptor) :: rest => do
              match redirection? (some descriptor) rest with
              | some result =>
                  let (redirection, rest) ← result
                  let (command, rest) ← readCommand fuel rest
                  return ({ command with
                    redirections := redirection :: command.redirections }, rest)
              | none => return ({}, tokens)
          | .word word none :: rest => do
              let (command, rest) ← readCommand fuel rest
              return ({ command with words := word :: command.words }, rest)
          | _ => .ok ({}, tokens)

private def isEmpty (command : Command) : Bool :=
  command.words.isEmpty && command.redirections.isEmpty

private def tokenText : List Token → String
  | [] => "end of file"
  | .operator "\n" :: _ => "newline"
  | .operator symbol :: _ => "\"" ++ symbol ++ "\""
  | .word _ _ :: _ => "word"

private def dropNewlines : List Token → List Token
  | .operator "\n" :: rest => dropNewlines rest
  | rest => rest

private def readPipeline : Nat → List Token → Except ScriptFault (List Command × List Token)
  | 0, tokens => .ok ([], tokens)
  | fuel + 1, tokens => do
      let (command, rest) ← readCommand (tokens.length + 1) tokens
      if isEmpty command then throw (.unexpected (tokenText rest))
      match rest with
      | .operator "|" :: rest =>
          let (commands, rest) ← readPipeline fuel (dropNewlines rest)
          return (command :: commands, rest)
      | rest => return ([command], rest)

private def readSteps : Nat → Condition → List Token → Except ScriptFault (List Step)
  | 0, _, _ => .ok []
  | fuel + 1, condition, tokens =>
      match dropNewlines tokens with
      | [] =>
          match condition with
          | .always => .ok []
          | _ => .error (.unexpected "end of file")
      | tokens => do
          let (pipeline, rest) ← readPipeline (tokens.length + 1) tokens
          let step : Step := ⟨condition, pipeline⟩
          match rest with
          | [] => return [step]
          | .operator ";" :: rest | .operator "&" :: rest | .operator "\n" :: rest =>
              return step :: (← readSteps fuel .always rest)
          | .operator "&&" :: rest => return step :: (← readSteps fuel .afterSuccess rest)
          | .operator "||" :: rest => return step :: (← readSteps fuel .afterFailure rest)
          | rest => throw (.unexpected (tokenText rest))

def readScript (text : String) : Except ScriptFault (List Step) := do
  let tokens ← readTokens (text.length + 1) text.toList
  readSteps (tokens.length + 1) .always tokens

end Stencil.Shell
