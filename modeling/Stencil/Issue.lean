import Stencil.Expression.ParseError
import Stencil.Expression.Print
import Stencil.Node.Kind
import Stencil.Evaluation.Builtin
import Stencil.Evaluation.FormatFault
import Stencil.Address.Fault
import Stencil.Host.Failure
import Stencil.Yaml.Fault

namespace Stencil

/-! Why an expression has no value, or why a marker merges nothing. -/

inductive Issue where
  | notFound (path : List String)
  | notInStubs (path : List String)
  | autoPlace
  | noJobs
  | jobsKind
  | instancesKind (job : String) (found : Kind)
  | noInstances (job : String)
  | overflow
  | divisionByZero
  | operands (operator : Operator) (left right : Kind)
  | concatenation (left right : Kind)
  | comparison
  | address (fault : AddressFault)
  | lambdaArguments (expected found : Nat)
  | lambdaText (source : String)
  | lambdaSource (source : String) (error : ParseError)
  | lambdaKind (found : Kind)
  | mappingParameters (count : Nat)
  | mappingCollection (found : Kind)
  | argumentCount (function : Builtin) (count : Nat)
  | argumentKind (function : Builtin) (position : Nat) (found : Kind)
  | scalarArguments (function : Builtin) (found : Kind)
  | joinElements (found : Kind)
  | trimEntries (found : Kind)
  | trimArgument (found : Kind)
  | lengthArgument (found : Kind)
  | network (function : Builtin) (fault : AddressFault)
  | addressCount
  | staticNothing (key : String)
  | staticIndices (found : Kind)
  | staticInstances (found : Kind)
  | staticNetwork (found : Kind)
  | staticNoSubnets (network : String)
  | staticSubnets
  | staticRange (fault : AddressFault)
  | staticRangeKind (found : Kind)
  | staticTooFew (instances indices : Nat)
  | staticOutOfRange (index : Nat) (network : String)
  | variableNotSet (name : String)
  | failure (failure : Failure)
  | fileContents (path : String) (fault : Yaml.Fault)
  | fileType (name : String)
  | evaluated (error : ParseError)
  | format (fault : FormatFault)
  | errorTemplate (fault : FormatFault)
  | raised (text : String)
  | unparseable (error : ParseError)
  | mapMerge (found : Kind)
  | listMerge (found : Kind)
deriving DecidableEq, Repr

namespace Issue

private def inStaticIps (text : String) : String := "static_ips: " ++ text

def message : Issue → String
  | .notFound path => "'" ++ Expression.pathText path ++ "' not found"
  | .notInStubs path => "'" ++ Expression.pathText path ++ "' not found in any stub"
  | .autoPlace => "auto only allowed for size entry in resource pools"
  | .noJobs => "no jobs found"
  | .jobsKind => "jobs must be a list"
  | .instancesKind job found =>
      "instances of job '" ++ job ++ "' must be an integer, got " ++ found.name
  | .noInstances job => "job '" ++ job ++ "' has no instances"
  | .overflow => "integer overflow"
  | .divisionByZero => "division by zero"
  | .operands operator left right =>
      "type mismatch: " ++ left.name ++ " " ++ operator.symbol ++ " " ++ right.name
  | .concatenation left right =>
      "type mismatch in concatenation: " ++ left.name ++ " and " ++ right.name
  | .comparison => "comparison only for integers"
  | .address fault => fault.message
  | .lambdaArguments expected found =>
      "lambda expects " ++ toString expected ++ " arguments, got " ++ toString found
  | .lambdaText source => "'" ++ source ++ "' is no lambda"
  | .lambdaSource source error => "invalid lambda '" ++ source ++ "': " ++ error.message
  | .lambdaKind found => "function call requires a lambda, got " ++ found.name
  | .mappingParameters count =>
      "map expects a lambda with 1 or 2 parameters, got " ++ toString count
  | .mappingCollection found => "map requires a list or map, got " ++ found.name
  | .argumentCount function count =>
      function.name ++ ": expected " ++ function.arity.text ++ " arguments, got " ++ toString count
  | .argumentKind function position found =>
      function.name ++ ": argument " ++ toString (position + 1) ++ " must be a string, got "
        ++ found.name
  | .scalarArguments function found =>
      function.name ++ ": arguments must be scalars, got " ++ found.name
  | .joinElements found => "join: elements must be scalars, got " ++ found.name
  | .trimEntries found => "trim: list entries must be strings, got " ++ found.name
  | .trimArgument found => "trim: argument 1 must be a string or list, got " ++ found.name
  | .lengthArgument found =>
      "length: argument 1 must be a list, map or string, got " ++ found.name
  | .network function fault => function.name ++ ": " ++ fault.message
  | .addressCount => "num_ip: integer overflow"
  | .staticNothing key => inStaticIps ("no '" ++ key ++ "' found")
  | .staticIndices found =>
      inStaticIps ("indices must be non-negative integers, got " ++ found.name)
  | .staticInstances found =>
      inStaticIps ("instances must be a non-negative integer, got " ++ found.name)
  | .staticNetwork found => inStaticIps ("network name must be a string, got " ++ found.name)
  | .staticNoSubnets name => inStaticIps ("no subnets found for network '" ++ name ++ "'")
  | .staticSubnets => inStaticIps "subnets must be a list"
  | .staticRange fault => inStaticIps fault.message
  | .staticRangeKind found => inStaticIps ("static ranges must be strings, got " ++ found.name)
  | .staticTooFew instances indices =>
      inStaticIps (toString instances ++ " instances but only " ++ toString indices ++ " indices")
  | .staticOutOfRange index name =>
      inStaticIps ("index " ++ toString index ++ " out of range of network '" ++ name ++ "'")
  | .variableNotSet name => "env: variable '" ++ name ++ "' not set"
  | .failure cause => cause.message
  | .fileContents path fault => "read: " ++ path ++ ": " ++ fault.message
  | .fileType name => "read: unknown file type '" ++ name ++ "', expected yaml or text"
  | .evaluated error => "eval: " ++ error.message
  | .format fault => "format: " ++ fault.message
  | .errorTemplate fault => "error: " ++ fault.message
  | .raised text => text
  | .unparseable error => "unparseable expression: " ++ error.message
  | .mapMerge found => "merging into a map requires a map, got " ++ found.name
  | .listMerge found => "merging into a list requires a list, got " ++ found.name

end Issue

end Stencil
