import Stencil.Number.Read

namespace Stencil.CommandLine

/-! What the arguments on the command line ask for. -/

inductive Format where
  | json
  | yaml
deriving DecidableEq, Repr

inductive Task where
  | resolve (template : String) (stubs : List String) (allowPartial : Bool) (limit : Nat)
      (format : Format)
  | showExpression (source : String)
  | showTree (file : String)
deriving DecidableEq, Repr

/-- A task, and the directories to go to beforehand. -/
structure Invocation where
  directories : List String
  task : Task
deriving DecidableEq, Repr

/-- Why arguments make no sense. -/
inductive UsageFault where
  | unknown (argument : String)
  | missingValue (option : String)
  | invalidValue (option value : String)
  | repeated (option : String)
  | missing (name : String)
deriving DecidableEq, Repr

def UsageFault.message : UsageFault → String
  | .unknown argument => "error: unexpected argument '" ++ argument ++ "' found"
  | .missingValue option =>
      "error: a value is required for '" ++ option ++ "' but none was supplied"
  | .invalidValue option value => "error: invalid value '" ++ value ++ "' for '" ++ option ++ "'"
  | .repeated option => "error: the argument '" ++ option ++ "' cannot be used multiple times"
  | .missing name => "error: the following required arguments were not provided: " ++ name

/-! Arguments, read as options with their values and as what stands between them. -/

inductive Item where
  | directory (path : String)
  | allowPartial
  | limit (text : String)
  | format (text : String)
  | plain (text : String)
deriving DecidableEq, Repr

/-- The options that take a value, by their names. -/
private def valued? (name : String) : Option (String → Item) :=
  match name with
  | "-C" | "--directory" => some .directory
  | "--max-passes" => some .limit
  | "-F" | "--output-format" => some .format
  | _ => none

/-- The name of an option and the value that is written in one argument with it. -/
private def splitOption (argument : String) : String × Option String :=
  match argument.toList with
  | '-' :: '-' :: rest =>
      let name := rest.takeWhile (· != '=')
      let value := match rest.drop name.length with
        | _ :: value => some (String.ofList value)
        | [] => none
      ("--" ++ .ofList name, value)
  | '-' :: letter :: '=' :: value => ("-" ++ letter.toString, some (.ofList value))
  | '-' :: letter :: first :: value => ("-" ++ letter.toString, some (.ofList (first :: value)))
  | _ => (argument, none)

private def isOption (argument : String) : Bool :=
  argument.startsWith "-" && argument != "-"

/-- Read the arguments in order. Behind two dashes there are no options. -/
def readItems : List String → Except UsageFault (List Item)
  | [] => .ok []
  | argument :: rest =>
      if argument = "--" then .ok (rest.map .plain)
      else if !isOption argument then return .plain argument :: (← readItems rest)
      else if argument = "--partial" then return .allowPartial :: (← readItems rest)
      else
        let (name, value) := splitOption argument
        match valued? name, value, rest with
        | none, _, _ => .error (.unknown argument)
        | some item, some value, rest => return item value :: (← readItems rest)
        | some item, none, value :: rest =>
            if isOption value then .error (.missingValue name)
            else return item value :: (← readItems rest)
        | some _, none, [] => .error (.missingValue name)

/-! Directories may be given in front of a command and behind it. The last place
where one is given counts alone. -/

private def directories (items : List Item) : List String :=
  items.filterMap fun item => match item with
    | .directory path => some path
    | _ => none

private def innermost (levels : List (List Item)) : List String :=
  ((levels.reverse.map directories).find? (!·.isEmpty)).getD []

private def plains (items : List Item) : List String :=
  items.filterMap fun item => match item with
    | .plain text => some text
    | _ => none

/-- The items in front of the next plain one, that one, and the items behind it. -/
private def splitCommand : List Item → Except UsageFault (List Item × String × List Item)
  | [] => .error (.missing "<COMMAND>")
  | .plain text :: rest => .ok ([], text, rest)
  | .directory path :: rest => do
      let (before, command, behind) ← splitCommand rest
      return (.directory path :: before, command, behind)
  | .allowPartial :: _ => .error (.unknown "--partial")
  | .limit _ :: _ => .error (.unknown "--max-passes")
  | .format _ :: _ => .error (.unknown "--output-format")

private def single {α : Type} (option : String) : List α → Except UsageFault (Option α)
  | [] => .ok none
  | [value] => .ok (some value)
  | _ => .error (.repeated option)

private def readLimit (text : String) : Except UsageFault Nat :=
  match Number.readUnsigned? 18446744073709551615 text.toList with
  | some limit => .ok limit
  | none => .error (.invalidValue "--max-passes" text)

private def readFormat (text : String) : Except UsageFault Format :=
  match text with
  | "json" => .ok .json
  | "yaml" => .ok .yaml
  | _ => .error (.invalidValue "--output-format" text)

private def resolveTask (defaultLimit : Nat) (items : List Item) : Except UsageFault Task := do
  let allowed ← single "--partial" (items.filter (· = .allowPartial))
  let limit ← single "--max-passes" (items.filterMap fun item => match item with
    | .limit text => some text
    | _ => none)
  let format ← single "--output-format" (items.filterMap fun item => match item with
    | .format text => some text
    | _ => none)
  let limit ← match limit with
    | some text => readLimit text
    | none => pure defaultLimit
  let format ← match format with
    | some text => readFormat text
    | none => pure Format.yaml
  match plains items with
  | [] => throw (.missing "<TEMPLATE>")
  | template :: stubs => return .resolve template stubs allowed.isSome limit format

private def onlyPlain (items : List Item) : Except UsageFault (List String) := do
  for item in items do
    match item with
    | .plain _ | .directory _ => pure ()
    | .allowPartial => throw (.unknown "--partial")
    | .limit _ => throw (.unknown "--max-passes")
    | .format _ => throw (.unknown "--output-format")
  return plains items

private def developerTask (command : String) (items : List Item) : Except UsageFault Task := do
  let arguments ← onlyPlain items
  match command, arguments with
  | "parse", [source] => return .showExpression source
  | "tree", [file] => return .showTree file
  | "parse", [] => throw (.missing "<EXPRESSION>")
  | "tree", [] => throw (.missing "<FILE>")
  | "parse", _ :: extra :: _ | "tree", _ :: extra :: _ => throw (.unknown extra)
  | command, _ => throw (.unknown command)

/-- What the arguments ask for. -/
def Invocation.ofArguments (defaultLimit : Nat) (arguments : List String) :
    Except UsageFault Invocation := do
  let items ← readItems arguments
  let (before, command, behind) ← splitCommand items
  match command with
  | "merge" | "m" =>
      return ⟨innermost [before, behind], ← resolveTask defaultLimit behind⟩
  | "dev" =>
      let (between, command, behind) ← splitCommand behind
      return ⟨innermost [before, between, behind], ← developerTask command behind⟩
  | command => throw (.unknown command)

end Stencil.CommandLine
