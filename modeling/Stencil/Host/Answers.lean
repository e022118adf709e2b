import Stencil.Host.Failure
import Stencil.Host.Path

namespace Stencil

/-! Expressions may ask for what lies outside of the documents. Evaluation only
knows the answers that were given before; at a question without an answer it
pauses, and starts again when the answer is there. Each question is asked once
in a run, so an answer never changes while the run lasts. -/

inductive Request where
  | environment
  | file (path : String)
  | command (arguments : List String)
deriving DecidableEq, Repr

structure Answers where
  environment : Option (List (String × String))
  file : String → Option (Except Failure String)
  command : List String → Option (Except Failure String)

/-- Why an evaluation does not end: a question is open, calls of lambdas and of
`eval` are nested more deeply than was granted, or a number that exceeds the machine
word has stopped the program. -/
inductive Pause where
  | needs (request : Request)
  | depth
  | overflow
deriving DecidableEq, Repr

namespace Answers

/-- Nothing is known. -/
def none : Answers := ⟨.none, fun _ => .none, fun _ => .none⟩

/-- Every question has an answer. -/
def Complete (answers : Answers) : Prop :=
  answers.environment.isSome ∧ (∀ path, (answers.file path).isSome)
    ∧ ∀ arguments, (answers.command arguments).isSome

def askEnvironment (answers : Answers) : Except Pause (List (String × String)) :=
  match answers.environment with
  | some known => .ok known
  | .none => .error (.needs .environment)

def askFile (answers : Answers) (path : String) : Except Pause (Except Failure String) :=
  match answers.file path with
  | some result => .ok result
  | .none => .error (.needs (.file path))

def askCommand (answers : Answers) (arguments : List String) :
    Except Pause (Except Failure String) :=
  match answers.command arguments with
  | some result => .ok result
  | .none => .error (.needs (.command arguments))

end Answers

end Stencil
