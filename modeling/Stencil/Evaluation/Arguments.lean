import Stencil.Evaluation.Builtin
import Stencil.Node.Basic

namespace Stencil

/-! The arguments of a function that is called by its name. -/

namespace Arguments

/-- Lists among the arguments give their entries. -/
def flatten (arguments : List Node) : List Node :=
  arguments.flatMap fun argument => match argument.value with
    | .list entries => entries
    | _ => [argument]

/-- The text that an argument at a position, counted from zero, has to be. -/
def text (function : Builtin) (position : Nat) (argument : Node) : Except Issue String :=
  match argument.value with
  | .text value => .ok value
  | value => .error (.argumentKind function position value.kind)

def checkCount (function : Builtin) (arguments : List Node) : Except Issue Unit :=
  if function.arity.accepts arguments.length then .ok ()
  else .error (.argumentCount function arguments.length)

end Arguments

end Stencil
