namespace Stencil

/-! The functions that a call by their plain name reaches. -/

inductive Builtin where
  | staticIps
  | minIp
  | maxIp
  | numIp
  | environment
  | read
  | execute
  | evaluate
  | split
  | join
  | trim
  | format
  | error
  | length
deriving DecidableEq, Repr

/-- How many arguments a function takes. -/
inductive Arity where
  | exactly (count : Nat)
  | atLeast (count : Nat)
  | between (least most : Nat)
deriving DecidableEq, Repr

namespace Arity

def accepts : Arity → Nat → Bool
  | .exactly expected, count => count == expected
  | .atLeast least, count => decide (least ≤ count)
  | .between least most, count => decide (least ≤ count) && decide (count ≤ most)

def text : Arity → String
  | .exactly count => toString count
  | .atLeast count => "at least " ++ toString count
  | .between least most => toString least ++ " to " ++ toString most

end Arity

namespace Builtin

def name : Builtin → String
  | .staticIps => "static_ips"
  | .minIp => "min_ip"
  | .maxIp => "max_ip"
  | .numIp => "num_ip"
  | .environment => "env"
  | .read => "read"
  | .execute => "exec"
  | .evaluate => "eval"
  | .split => "split"
  | .join => "join"
  | .trim => "trim"
  | .format => "format"
  | .error => "error"
  | .length => "length"

/-- `error` checks nothing beforehand: without arguments it fails all the same. -/
def arity : Builtin → Arity
  | .staticIps => .atLeast 1
  | .minIp => .exactly 1
  | .maxIp => .exactly 1
  | .numIp => .exactly 1
  | .environment => .atLeast 1
  | .read => .between 1 2
  | .execute => .atLeast 1
  | .evaluate => .exactly 1
  | .split => .exactly 2
  | .join => .atLeast 1
  | .trim => .between 1 2
  | .format => .atLeast 1
  | .error => .atLeast 0
  | .length => .exactly 1

def all : List Builtin :=
  [.staticIps, .minIp, .maxIp, .numIp, .environment, .read, .execute, .evaluate, .split,
    .join, .trim, .format, .error, .length]

def ofName? (name : String) : Option Builtin := all.find? (·.name = name)

end Builtin

end Stencil
