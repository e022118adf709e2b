import Stencil.Expression.Parse
import Stencil.Host.Answers

namespace Stencil

/-! What a run remembers of its questions. Files are known by the components of
their path. A command is known by its arguments, each with a NUL behind it; the
other keys are free labels. An expression is known by its source and its place. -/

inductive CommandKey where
  | arguments (text : String)
  | label (text : String)
deriving DecidableEq, Repr

namespace CommandKey

def argumentsText (arguments : List String) : String :=
  String.join (arguments.map (· ++ "\x00"))

def ofArguments (arguments : List String) : CommandKey := .arguments (argumentsText arguments)

end CommandKey

structure Memory where
  environment : Option (List (String × String)) := none
  files : List (List String × Except Failure String) := []
  commands : List (CommandKey × Except Failure String) := []
  /-- The sources that were read, each at the place where it stands. -/
  expressions : List ((String × List String) × Except ParseError Expression) := []

namespace Memory

def answers (memory : Memory) : Answers where
  environment := memory.environment
  file path := memory.files.lookup (Path.components path)
  command arguments := memory.commands.lookup (.ofArguments arguments)

section
variable {m : Type → Type} [Monad m]

/-- What is known under a key. If nothing is, it is made now and kept, be it a failure. -/
def recalled {κ ρ : Type} [BEq κ] (table : List (κ × ρ)) (key : κ) (make : m ρ) :
    m (ρ × List (κ × ρ)) :=
  match table.lookup key with
  | some known => return (known, table)
  | none => do
      let made ← make
      return (made, (key, made) :: table)

def readFile (memory : Memory) (path : String) (read : String → m (Except Failure String)) :
    m (Except Failure String × Memory) := do
  let (result, files) ← recalled memory.files (Path.components path) (read path)
  return (result, { memory with files })

def runCommand (memory : Memory) (key : CommandKey) (run : m (Except Failure String)) :
    m (Except Failure String × Memory) := do
  let (result, commands) ← recalled memory.commands key run
  return (result, { memory with commands })

def parse (memory : Memory) (source : String) (path : List String) :
    m (Except ParseError Expression × Memory) := do
  let (result, expressions) ←
    recalled memory.expressions (source, path) (return Expression.parse source path)
  return (result, { memory with expressions })

end

/-- Hand out a given result and note that it was asked for. -/
def noting (given : Except Failure String) : StateM Bool (Except Failure String) := do
  set true
  return given

/-- The result of a file, remembered unless there already is one; the first
component tells whether the new result was used. -/
def giveFile (memory : Memory) (path : String) (result : Except Failure String) :
    (Bool × Except Failure String) × Memory :=
  let ((known, memory), used) := (memory.readFile path fun _ => noting result).run false
  ((used, known), memory)

def giveCommand (memory : Memory) (key : CommandKey) (result : Except Failure String) :
    (Bool × Except Failure String) × Memory :=
  let ((known, memory), used) := (memory.runCommand key (noting result)).run false
  ((used, known), memory)

end Memory

/-- How the outside answers. -/
structure Services (m : Type → Type) where
  environment : m (List (String × String))
  file : String → m (Except Failure String)
  command : List String → m (Except Failure String)

namespace Memory

variable {m : Type → Type} [Monad m] {α : Type}

/-- Ask one question and remember the answer. -/
def ask (services : Services m) (memory : Memory) : Request → m Memory
  | .environment => do
      let known ← services.environment
      return { memory with environment := memory.environment <|> some known }
  | .file path => do
      let (_, memory) ← memory.readFile path services.file
      return memory
  | .command arguments => do
      let (_, memory) ← memory.runCommand (.ofArguments arguments) (services.command arguments)
      return memory

/-- Repeat a piece of work, with one more answer each time, until it has all the
answers it needs. The fuel bounds the number of questions. -/
def complete (services : Services m) (work : Answers → Except Pause α) :
    Nat → Memory → m (Except Pause α × Memory)
  | 0, memory => return (work memory.answers, memory)
  | fuel + 1, memory =>
      match work memory.answers with
      | .error (.needs request) => do
          complete services work fuel (← memory.ask services request)
      | result => return (result, memory)

end Memory

end Stencil
