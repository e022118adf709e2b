import Stencil.Host.Path
import Stencil.Host.Services
import Stencil.Node.Data
import Stencil.Yaml.Read

namespace Stencil

/-! Documents from text and from files. Every node of a document carries the
absolute path of its file. -/

inductive LoadFault where
  | unreadable (path : String) (fault : FileFault)
  | notData (fault : Yaml.Fault)
deriving DecidableEq, Repr

namespace LoadFault

def message : LoadFault → String
  | .unreadable path _ => "Unable to read " ++ path
  | .notData _ => "Unable to parse yaml"

/-- The message and the one of its cause. -/
def messages : LoadFault → List String
  | .unreadable path fault => [(unreadable path fault).message, fault.message]
  | .notData fault => [(notData fault).message, fault.message]

end LoadFault

def Node.ofText (source : Option String) (text : String) : Except LoadFault Node :=
  match Yaml.read text with
  | .ok tree => .ok (.ofTree source tree)
  | .error fault => .error (.notData fault)

namespace Host

variable {m : Type → Type} [Monad m]

/-- The file name that stands for the standard input. -/
def inputName : String := "-"

def loadInput (host : Host m) : m (Except LoadFault Node) := do
  match String.fromUTF8? (← host.input) with
  | some text => return Node.ofText (some inputName) text
  | none => return .error (.unreadable inputName .notText)

def load (host : Host m) (path : String) : m (Except LoadFault Node) := do
  if Path.components path = [inputName] then return ← host.loadInput
  match ← host.store.canonical path with
  | .error fault => return .error (.unreadable path fault)
  | .ok canonical =>
      match ← host.store.readText canonical with
      | .error fault => return .error (.unreadable canonical fault)
      | .ok text => return Node.ofText (some canonical) text

end Host

end Stencil
