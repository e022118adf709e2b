import Stencil.Host.Answers
import Stencil.Node.Lookup

namespace Stencil

/-! Where an expression is evaluated: inside the fields of all enclosing maps,
innermost first, with the sorted local names that lambdas bind, at a path of the
document and at one of the stubs. -/

structure Binding where
  scopes : List (List (String × Node)) := []
  locals : List (String × Node) := []
  path : List String := []
  stubPath : List String := []
  stubs : List Node := []
  source : Option String := none
  answers : Answers := .none

namespace Binding

def withScope (binding : Binding) (fields : List (String × Node)) : Binding :=
  { binding with scopes := fields :: binding.scopes }

/-- One step down, in the document and in the stubs. -/
def withPath (binding : Binding) (step : String) : Binding :=
  { binding with path := binding.path ++ [step], stubPath := binding.stubPath ++ [step] }

def withStubPath (binding : Binding) (stubPath : List String) : Binding :=
  { binding with stubPath }

/-- More local names, which hide the old ones. -/
def withLocals (binding : Binding) (names : List (String × Node)) : Binding :=
  { binding with locals := Table.mergeSorted binding.locals names }

def withSource (binding : Binding) (source : Option String) : Binding :=
  { binding with source }

/-- The place of a path below the node that its first step has in a table. -/
def findIn (fields : List (String × Node)) (first : String) (rest : List String) :
    Option Lookup :=
  (fields.lookup first).map fun node => node.find rest

/-- The outermost map decides. -/
def findFromRoot (binding : Binding) : List String → Lookup
  | [] => .missing
  | first :: rest =>
      ((binding.scopes.getLast?).bind fun root => findIn root first rest).getD .missing

/-- Local names decide, then the nearest map that has the first step as a key. -/
def findReference (binding : Binding) : List String → Lookup
  | [] => .missing
  | first :: rest =>
      ((binding.locals :: binding.scopes).findSome? fun fields => findIn fields first rest).getD
        .missing

/-- What the first stub has that has anything at the path. -/
def findInStubs? (binding : Binding) (path : List String) : Option Node :=
  binding.stubs.findSome? fun stub => (stub.find path).found?

end Binding

end Stencil
