import Stencil.Evaluation.Arguments
import Stencil.Evaluation.Binding
import Stencil.Evaluation.Outcome
import Stencil.Node.Data
import Stencil.Yaml.Read

namespace Stencil.HostFunction

/-! Functions that ask the outside. -/

/-- The variables among these names that are set, under their positions in the call. -/
def setVariables (known : List (String × String)) (source : Option String) :
    Nat → List Node → Except Issue (List (String × Node))
  | _, [] => .ok []
  | position, entry :: entries => do
      let name ← Arguments.text .environment position entry
      let rest ← setVariables known source (position + 1) entries
      return match known.lookup name with
        | some value => (name, .ofSource source (.text value)) :: rest
        | none => rest

/-- A single name gives the value of the variable, anything else a map of those
that are set. -/
def settings (known : List (String × String)) (source : Option String)
    (arguments : List Node) : Except Issue Value :=
  let several : Except Issue Value :=
    (setVariables known source 0 (Arguments.flatten arguments)).map
      fun fields => .map (Table.ofList fields)
  match arguments with
  | [single] =>
      match single.value with
      | .text name =>
          match known.lookup name with
          | some value => .ok (.text value)
          | none => .error (.variableNotSet name)
      | _ => several
  | _ => several

def environment (binding : Binding) (arguments : List Node) : Except Pause Outcome :=
  match Arguments.checkCount .environment arguments with
  | .error issue => .ok (.ofIssue issue)
  | .ok () => do
      let known ← binding.answers.askEnvironment
      return .ofResult binding.source (orIssue (settings known binding.source arguments))

/-- How the contents of a file are taken. A file is data by the ending of its name. -/
def defaultKind (path : String) : String :=
  match Path.extension? path with
  | some "yml" | some "yaml" => "yaml"
  | _ => "text"

/-- The path and the kind that a call of `read` names. -/
def fileArguments : List Node → Except Issue (String × String)
  | [path] => do
      let path ← Arguments.text .read 0 path
      return (path, defaultKind path)
  | [path, kind] => do
      let path ← Arguments.text .read 0 path
      return (path, ← Arguments.text .read 1 kind)
  | arguments => .error (.argumentCount .read arguments.length)

/-- Data comes from the file, and a text from the place of the call. -/
def fileOutcome (path kind : String) (source : Option String) (contents : String) : Outcome :=
  match kind with
  | "yaml" =>
      match Yaml.read contents with
      | .ok tree => .value (.ofTree (some path) tree) {}
      | .error fault => .ofIssue (.fileContents path fault)
  | "text" => .ofValue source (.text contents)
  | other => .ofIssue (.fileType other)

def read (binding : Binding) (arguments : List Node) : Except Pause Outcome :=
  match fileArguments arguments with
  | .error issue => .ok (.ofIssue issue)
  | .ok (path, kind) => do
      match ← binding.answers.askFile path with
      | .ok contents => return fileOutcome path kind binding.source contents
      | .error failure => return .ofIssue (.failure failure)

def commandText (entry : Node) : Except Issue String :=
  match entry.value.text? with
  | some text => .ok text
  | none => .error (.scalarArguments .execute entry.kind)

/-- Output that writes a collection, a number or a truth value is taken as data;
anything else is a text without the white space around it. -/
def outputNode (source : Option String) (output : String) : Node :=
  match Yaml.read output with
  | .ok (.mapping fields) => .ofTree source (.mapping fields)
  | .ok (.sequence entries) => .ofTree source (.sequence entries)
  | .ok (.integer value) => .ofTree source (.integer value)
  | .ok (.decimal value) => .ofTree source (.decimal value)
  | .ok (.boolean value) => .ofTree source (.boolean value)
  | _ => .ofSource source (.text (Text.trim output))

def execute (binding : Binding) (arguments : List Node) : Except Pause Outcome :=
  match (Arguments.checkCount .execute arguments).bind
      fun _ => (Arguments.flatten arguments).mapM commandText with
  | .error issue => .ok (.ofIssue issue)
  | .ok command => do
      match ← binding.answers.askCommand command with
      | .ok output => return .value (outputNode binding.source output) {}
      | .error failure => return .ofIssue (.failure failure)

end Stencil.HostFunction
