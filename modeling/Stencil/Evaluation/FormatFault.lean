import Stencil.Node.Kind

namespace Stencil

/-! Why a template cannot be filled with its arguments. -/

inductive FormatFault where
  | incomplete
  | missingArgument (verb : Char)
  | argumentKind (verb : Char) (found : Kind)
  | unknownVerb (verb : Char)
  | unusedArguments (count : Nat)
deriving DecidableEq, Repr

def FormatFault.message : FormatFault → String
  | .incomplete => "incomplete directive at end of template"
  | .missingArgument verb => "missing argument for %" ++ verb.toString
  | .argumentKind verb found => "%" ++ verb.toString ++ " can not format " ++ found.name
  | .unknownVerb verb => "unknown directive %" ++ verb.toString
  | .unusedArguments count => toString count ++ " arguments left unused"

end Stencil
