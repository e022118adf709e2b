import Stencil.Host.Program
import Stencil.Host.Shell.Script
import Stencil.Table

namespace Stencil.Shell

/-! Running a script. -/

structure State where
  environment : List (String × String)
  positional : List String
  last : Nat := 0
  output : ByteArray := .empty
  errors : ByteArray := .empty
  /-- Set when the shell itself has come to its end. -/
  ending : Option ExitStatus := none

namespace State

def name (state : State) : String := state.positional.head?.getD "sh"

/-- Number of the process; any would do. -/
private def process : String := "4711"

private def value (state : State) (name : String) : String :=
  match name with
  | "$" => process
  | "?" => toString state.last
  | "#" => toString (state.positional.length - 1)
  | name =>
      match name.toNat? with
      | some index => state.positional[index]?.getD ""
      | none => (state.environment.lookup name).getD ""

def complain (state : State) (text : String) : State :=
  { state with errors := state.errors ++ (state.name ++ ": 1: " ++ text ++ "\n").toUTF8 }

end State

/-! Words become fields: what is not quoted is cut at white space. -/

private def isGap (character : Char) : Bool :=
  character = ' ' || character = '\t' || character = '\n'

/-- Fields so far, the last of them still open if there is one. -/
private structure Fields where
  done : List String := []
  last : Option String := none

private def Fields.add (fields : Fields) (text : String) : Fields :=
  { fields with last := some (fields.last.getD "" ++ text) }

private def Fields.close (fields : Fields) : Fields :=
  match fields.last with
  | some text => ⟨fields.done ++ [text], none⟩
  | none => fields

private def Fields.addSplit (fields : Fields) (text : String) : Fields :=
  text.toList.foldl (fun fields character =>
    if isGap character then fields.close else fields.add character.toString) fields

private def expandWord (state : State) (word : Word) : List String :=
  let fields := word.foldl (fun fields part => match part with
    | .literal text => fields.add text
    | .reference name true => fields.add (state.value name)
    | .reference name false => fields.addSplit (state.value name)) ({} : Fields)
  fields.close.done

private def expandWhole (state : State) (word : Word) : String :=
  String.join (word.map fun part => match part with
    | .literal text => text
    | .reference name _ => state.value name)

/-! Assignments stand in front of a command, or alone. -/

private def assignment? (word : Word) : Option (String × Word) :=
  let written := word.takeWhile fun part => match part with
    | .literal _ => true
    | .reference _ _ => false
  let text := String.join (written.map fun part => match part with
    | .literal text => text
    | .reference _ _ => "")
  let name := text.toList.takeWhile (· != '=')
  match name, text.toList.drop name.length with
  | first :: rest, _ :: behind =>
      if (first.isAlpha || first = '_') && rest.all fun c => c.isAlphanum || c = '_' then
        some (.ofList name, .literal (.ofList behind) :: word.drop written.length)
      else none
  | _, _ => none

/-! Where input comes from and output goes to. -/

private inductive Target where
  | output
  | errors
  | file (path : String)

private structure Streams where
  input : ByteArray
  output : Target := .output
  errors : Target := .errors

private def Streams.set (streams : Streams) (descriptor : Nat) (target : Target) : Streams :=
  if descriptor = 2 then { streams with errors := target }
  else if descriptor = 1 then { streams with output := target }
  else streams

private def Streams.get (streams : Streams) (descriptor : Nat) : Target :=
  if descriptor = 2 then streams.errors else streams.output

variable {m : Type → Type} [Monad m]

private def openText (fault : FileFault) : String :=
  match fault with
  | .missing => "No such file"
  | .directory => "Is a directory"
  | .notDirectory => "Not a directory"
  | fault => fault.message

/-- The streams of a command, or the complaint about a file. -/
private def redirect (store : FileStore m) (state : State) :
    List Redirection → Streams → m (Except String Streams)
  | [], streams => return .ok streams
  | .input file :: rest, streams => do
      let path := expandWhole state file
      match ← store.read path with
      | .ok input => redirect store state rest { streams with input }
      | .error fault => return .error ("cannot open " ++ path ++ ": " ++ openText fault)
  | .output descriptor append file :: rest, streams => do
      let path := expandWhole state file
      match ← store.write append path .empty with
      | .ok () => redirect store state rest (streams.set descriptor (.file path))
      | .error fault => return .error ("cannot create " ++ path ++ ": " ++ openText fault)
  | .duplicate descriptor target :: rest, streams =>
      redirect store state rest (streams.set descriptor (streams.get target))

/-- Bytes for a target: what goes to the output, what to the errors. -/
private def deliver (store : FileStore m) (target : Target) (bytes : ByteArray)
    (output errors : ByteArray) : m (ByteArray × ByteArray) := do
  match target with
  | .output => return (output ++ bytes, errors)
  | .errors => return (output, errors ++ bytes)
  | .file path =>
      let _ ← store.write true path bytes
      return (output, errors)

/-! Signals. -/

private def signals : List (Nat × String) :=
  [(1, "HUP"), (2, "INT"), (3, "QUIT"), (6, "ABRT"), (9, "KILL"), (13, "PIPE"), (14, "ALRM"),
    (15, "TERM")]

private def signal? (text : String) : Option (Nat × String) :=
  let name := match text.toList with
    | '-' :: rest => String.ofList rest
    | rest => String.ofList rest
  signals.find? fun (number, short) =>
    name = toString number || name = short || name = "SIG" ++ short

/-! The commands of the shell itself. -/

private def exitCode (state : State) : List String → Except String Nat
  | [] => .ok state.last
  | text :: _ =>
      match text.toNat? with
      | some code => .ok (code % 256)
      | none => .error text

/-- What a command of the shell does to it; nothing if the name is none of its. -/
private def builtin? (state : State) (name : String) (arguments : List String) :
    Option (Ending × State) :=
  match name with
  | ":" => some ({}, state)
  | "echo" => some (Program.shellEcho arguments, state)
  | "exit" | "return" =>
      match exitCode state arguments with
      | .ok code => some ({ status := .code code }, { state with ending := some (.code code) })
      | .error text =>
          some (.failing 2 (state.name ++ ": 1: exit: Illegal number: " ++ text ++ "\n"),
            { state with ending := some (.code 2) })
  | "kill" =>
      let (sent, processes) := match arguments with
        | option :: rest =>
            if option.startsWith "-" then (signal? option, rest) else (some (15, "TERM"), arguments)
        | [] => (none, [])
      match sent, processes with
      | some (number, short), [process] =>
          if process = State.process then
            some ({}, { state with ending := some (.signal number ("SIG" ++ short)) })
          else some (.failing 1, state)
      | _, _ => some (.failing 2, state)
  | "export" | "unset" | "set" => some ({}, state)
  | _ => none

private def statusCode : ExitStatus → Nat
  | .code value => value
  | .signal number _ => 128 + number

/-- Run one command with an input. What it prints for the next one is the first result. -/
private def runCommand (store : FileStore m) (input : ByteArray) (state : State)
    (command : Command) : m (ByteArray × State) := do
  let assigned := command.words.takeWhile fun word => (assignment? word).isSome
  let fields := (command.words.drop assigned.length).flatMap (expandWord state)
  let bindings := assigned.filterMap assignment?
  let assign (state : State) : State := bindings.foldl (fun state (name, word) =>
    { state with environment := Table.put name (expandWhole state word) state.environment }) state
  match ← redirect store state command.redirections ⟨input, .output, .errors⟩ with
  | .error text =>
      return (.empty, { state.complain text with last := 2 })
  | .ok streams =>
      match fields with
      | [] => return (.empty, { assign state with last := 0 })
      | name :: arguments => do
          let (ending, state) ← match builtin? state name arguments with
            | some result => pure result
            | none =>
                match ← Program.run store streams.input name arguments with
                | some ending => pure (ending, state)
                | none =>
                    let text := state.name ++ ": 1: " ++ name ++ ": not found\n"
                    pure (Ending.failing 127 text, state)
          let (output, errors) ← deliver store streams.output ending.output .empty state.errors
          let (output, errors) ← deliver store streams.errors ending.errors output errors
          return (output, { state with errors, last := statusCode ending.status })

private def runPipeline (store : FileStore m) (input : ByteArray) (state : State) :
    List Command → m State
  | [] => return state
  | [command] => do
      let (output, state) ← runCommand store input state command
      return { state with output := state.output ++ output }
  | command :: commands => do
      let (output, inner) ← runCommand store input state command
      -- A command that is not the last of its pipeline runs in a shell of its own.
      runPipeline store output { state with errors := inner.errors } commands

private def runSteps (store : FileStore m) (input : ByteArray) :
    List Step → State → m State
  | [], state => return state
  | step :: steps, state => do
      if state.ending.isSome then return state
      let due := match step.condition with
        | .always => true
        | .afterSuccess => state.last = 0
        | .afterFailure => state.last != 0
      if due then runSteps store input steps (← runPipeline store input state step.pipeline)
      else runSteps store input steps state

/-- Run a script with the name of the shell and its arguments. -/
def runScript (store : FileStore m) (environment : List (String × String)) (input : ByteArray)
    (script : String) (positional : List String) : m Ending := do
  let state : State := { environment, positional }
  match readScript script with
  | .error fault => return .failing 2 (state.name ++ ": 1: " ++ fault.message ++ "\n")
  | .ok steps =>
      let final ← runSteps store input steps state
      return ⟨final.output, final.errors, final.ending.getD (.code final.last)⟩

/-- The shell as a program. -/
def run (store : FileStore m) (environment : List (String × String)) (input : ByteArray) :
    List String → m Ending
  | "-c" :: script :: positional =>
      runScript store environment input script (if positional.isEmpty then ["sh"] else positional)
  | ["-c"] => return .failing 2 "sh: 0: -c requires an argument\n"
  | file :: arguments => do
      match ← store.readText file with
      | .ok script => runScript store environment input script (file :: arguments)
      | .error _ => return .failing 2 ("sh: 0: cannot open " ++ file ++ ": No such file\n")
  | [] => do
      match String.fromUTF8? input with
      | some script => runScript store environment .empty script ["sh"]
      | none => return .failing 2

end Stencil.Shell
