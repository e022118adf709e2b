import Stencil.Host.Memory
import Stencil.Host.Shell.Run
import Stencil.Host.World
import Stencil.Text.Blank
import Stencil.Text.Lossy

namespace Stencil

/-! How a host answers: the variables of its environment, the texts of its files,
and the output of its programs. -/

structure Host (m : Type → Type) where
  store : FileStore m
  environment : m (List (String × String))
  /-- What is left on the standard input. -/
  input : m ByteArray

namespace Host

variable {m : Type → Type} [Monad m]

private def commandResult (program : String) (ending : Ending) : Except Failure String :=
  if !ending.status.successful then
    .error (.unsuccessful program ending.status (Text.trim (Text.ofBytes ending.errors.toList)))
  else
    match String.fromUTF8? ending.output with
    | some text => .ok text
    | none => .error (.outputNotText program)

/-- What a command that could not be found turns out to be. -/
private def missingProgram (host : Host m) (program : String) : m FileFault := do
  if !program.toList.contains '/' then return .missing
  match ← host.store.canonical program with
  | .ok _ => return .denied
  | .error fault => return fault

def command (host : Host m) : List String → m (Except Failure String)
  | [] => return .error .noCommand
  | program :: arguments => do
      if (program :: arguments).any (·.toList.contains '\x00') then
        return .error (.notStarted program .nulInArgument)
      if Program.plainName program = "sh" then
        let ending ← Shell.run host.store (← host.environment) .empty arguments
        return commandResult program ending
      match ← Program.run host.store .empty program arguments with
      | some ending => return commandResult program ending
      | none => return .error (.notStarted program (← host.missingProgram program))

def file (host : Host m) (path : String) : m (Except Failure String) := do
  match ← host.store.readText path with
  | .ok text => return .ok text
  | .error fault => return .error (.unreadable path fault)

def services (host : Host m) : Services m where
  environment := host.environment
  file := host.file
  command := host.command

end Host

/-- The host that a world is. -/
def World.host : Host (StateM World) where
  store := World.store
  environment := return (← get).environment
  input := modifyGet fun world => (world.input, { world with input := .empty })

end Stencil
