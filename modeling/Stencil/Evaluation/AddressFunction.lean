import Stencil.Address.Range
import Stencil.Evaluation.Arguments
import Stencil.Evaluation.Binding
import Stencil.Evaluation.Outcome
import Stencil.Number.Word

namespace Stencil.AddressFunction

/-! Functions on networks, and the addresses of the instances of a job. -/

/-- The range of the network that is the only argument. -/
def network (function : Builtin) : List Node → Except Issue AddressRange
  | [argument] => do
      let text ← Arguments.text function 0 argument
      match AddressRange.ofNetwork text with
      | .ok range => return range
      | .error fault => throw (.network function fault)
  | arguments => .error (.argumentCount function arguments.length)

def least (arguments : List Node) : Except Issue Value :=
  (network .minIp arguments).map fun range => .text range.firstAddress.print

def greatest (arguments : List Node) : Except Issue Value :=
  (network .maxIp arguments).map fun range => .text range.lastAddress.print

def count (arguments : List Node) : Except Issue Value := do
  let range ← network .numIp arguments
  match Number.word? (range.last - range.first + 1) with
  | some word => return .integer word
  | none => throw .addressCount

/-! The addresses of instances are picked by index from the static ranges of all
subnets of a network, which is named by the nearest `name`; the nearest
`instances` says how many are needed. -/

/-- What the nearest map has at a key, once it is no expression any more. -/
def nearest (binding : Binding) (key : String) : Except Obstacle Node :=
  match binding.findReference [key] with
  | .found node => if node.isLocallyResolved then .ok node else .error .unresolved
  | .unresolved => .error .unresolved
  | .missing => refuse (.staticNothing key)

def indexArgument (entry : Node) : Except Obstacle Nat :=
  match entry.value with
  | .integer value =>
      if 0 ≤ value then .ok value.toInt.toNat else refuse (.staticIndices .integer)
  | value => refuse (.staticIndices value.kind)

def instancesNeeded (binding : Binding) : Except Obstacle Nat := do
  let node ← nearest binding "instances"
  match node.value with
  | .integer value =>
      if 0 ≤ value then return value.toInt.toNat else refuse (.staticInstances .integer)
  | value => refuse (.staticInstances value.kind)

def networkName (binding : Binding) : Except Obstacle String := do
  let node ← nearest binding "name"
  match node.value with
  | .text name => return name
  | value => refuse (.staticNetwork value.kind)

def staticRange (spec : Node) : Except Obstacle AddressRange :=
  if !spec.isLocallyResolved then .error .unresolved
  else
    match spec.value with
    | .text text =>
        match AddressRange.ofText text with
        | .ok range => .ok range
        | .error fault => refuse (.staticRange fault)
    | value => refuse (.staticRangeKind value.kind)

/-- The ranges in the field `static` of a subnet, a list or a single one. -/
def subnetRanges (subnet : Node) : Except Obstacle (List AddressRange) :=
  if !subnet.isLocallyResolved then .error .unresolved
  else
    match subnet.get? "static" with
    | none => .ok []
    | some statics => (Arguments.flatten [statics]).mapM staticRange

def staticRanges (binding : Binding) (network : String) :
    Except Obstacle (List AddressRange) := do
  match binding.findFromRoot ["networks", network, "subnets"] with
  | .unresolved => throw .unresolved
  | .missing => refuse (.staticNoSubnets network)
  | .found subnets =>
      match subnets.value with
      | .list entries => return (← entries.mapM subnetRanges).flatten
      | _ => if subnets.isLocallyResolved then refuse .staticSubnets else throw .unresolved

def staticAddress (binding : Binding) (network : String) (ranges : List AddressRange)
    (index : Nat) : Except Obstacle Node :=
  match AddressRange.addressAt? ranges index with
  | some address => .ok (.ofSource binding.source (.text address.print))
  | none => refuse (.staticOutOfRange index network)

def staticAddresses (binding : Binding) (arguments : List Node) : Except Obstacle Value := do
  let indices ← (Arguments.flatten arguments).mapM indexArgument
  let needed ← instancesNeeded binding
  let network ← networkName binding
  let ranges ← staticRanges binding network
  if indices.length < needed then refuse (.staticTooFew needed indices.length)
  return .list (← (indices.take needed).mapM (staticAddress binding network ranges))

end Stencil.AddressFunction
