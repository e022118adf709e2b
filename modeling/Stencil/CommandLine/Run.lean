import Stencil.CommandLine.Arguments
import Stencil.Document
import Stencil.Expression.Outline
import Stencil.Resolution.Resolve

namespace Stencil.CommandLine

/-! Carrying out what the command line asks for. -/

/-- What is printed, and the exit code. -/
structure Result where
  output : String := ""
  errors : String := ""
  code : Nat := 0
deriving DecidableEq, Repr

namespace Result

private def lines (texts : List String) : String := String.join (texts.map (· ++ "\n"))

/-- A message and its causes, each on a line. -/
def failing (messages : List String) : Result := { errors := lines messages, code := 1 }

/-- A run that breaks off; a number beyond the machine word has a code of its own. -/
def stopped : Pause → Result
  | .overflow => { errors := lines ["a width exceeds the machine word"], code := 101 }
  | _ => .failing ["calls are nested too deeply"]

end Result

variable {m : Type → Type} [Monad m]

/-- How many questions a run may ask. -/
def questionLimit : Nat := 1000000

private def loadAll (host : Host m) : List String → m (Except (String × LoadFault) (List Node))
  | [] => return .ok []
  | path :: paths => do
      match ← host.load path with
      | .error fault => return .error (path, fault)
      | .ok node => return (← loadAll host paths).map (node :: ·)

def documentText (format : Format) (document : Node) : String :=
  match format with
  | .json => document.prettyJson ++ "\n"
  | .yaml => Yaml.write document.tree

private def resolutionResult (format : Format) :
    Except ResolutionFault Resolution → Result
  | .error fault => .failing ["Failed to resolve template", fault.message]
  | .ok resolution =>
      { output := documentText format resolution.document
        errors := if resolution.isComplete then ""
          else UnresolvedNode.listText resolution.unresolved ++ "\n" }

private def resolve (host : Host m) (template : String) (stubs : List String)
    (allowPartial : Bool) (limit : Nat) (format : Format) : m Result := do
  match ← host.load template with
  | .error fault => return .failing (("Failed to load template " ++ template) :: fault.messages)
  | .ok document =>
      match ← loadAll host stubs with
      | .error (path, fault) => return .failing (("Failed to load stub " ++ path) :: fault.messages)
      | .ok given =>
          let (result, _) ← Memory.complete host.services
            (fun answers => Resolution.cascade answers limit allowPartial given document)
            questionLimit {}
          match result with
          | .ok resolution => return resolutionResult format resolution
          | .error pause => return .stopped pause

private def showExpression (source : String) : Result :=
  match Expression.parse source [] with
  | .error error => .failing [error.message]
  | .ok expression => { output := expression.outline.text ++ "\n" ++ expression.print ++ "\n" }

private def showTree (host : Host m) (file : String) : m Result := do
  match ← host.load file with
  | .error fault => return .failing fault.messages
  | .ok document =>
      return { output := String.join (document.places.map fun (place, node) =>
        place.text ++ "\t" ++ node.kind.name ++ "\n") }

/-- Go to one directory after the other, or say which one is none. -/
private def enterAll (host : Host m) : List String → m (Option Result)
  | [] => return none
  | path :: paths => do
      match ← host.store.canonical path with
      | .error fault =>
          return some (.failing
            ["Failed to resolve path for -C/--directory " ++ path, fault.message])
      | .ok directory =>
          match ← host.store.enter directory with
          | .error fault =>
              return some (.failing
                ["Failed to set work directory to " ++ directory, fault.message])
          | .ok () => enterAll host paths

def perform (host : Host m) (invocation : Invocation) : m Result := do
  match ← enterAll host invocation.directories with
  | some result => return result
  | none =>
      match invocation.task with
      | .resolve template stubs allowPartial limit format =>
          resolve host template stubs allowPartial limit format
      | .showExpression source => return showExpression source
      | .showTree file => showTree host file

def run (host : Host m) (arguments : List String) : m Result := do
  match Invocation.ofArguments Resolution.defaultLimit arguments with
  | .error fault => return { errors := fault.message ++ "\n", code := 2 }
  | .ok invocation => perform host invocation

end Stencil.CommandLine
