import Stencil.Evaluation.AddressFunction
import Stencil.Evaluation.HostFunction
import Stencil.Evaluation.Operation
import Stencil.Evaluation.Reference
import Stencil.Evaluation.TextFunction
import Stencil.Expression.Parse

namespace Stencil

/-! Evaluation recurses on the expression. Where it leaves the expression, at the
call of a lambda and at `eval`, it goes through a given evaluator. -/

abbrev Evaluator := Binding → Expression → Except Pause Outcome

/-- The values of operands and what was reported on the way, or the outcome of the
first one that has no value. -/
abbrev Operands := Except Outcome (List Node × Report)

namespace Outcome

/-- Go on with the node of a value; without a value the outcome stays. -/
def bind (outcome : Outcome) (next : Node → Report → Except Pause Outcome) :
    Except Pause Outcome :=
  match outcome with
  | .value node report => next node report
  | stopped => .ok stopped

/-- Go on with the node of an operand, after what was reported before it. -/
def operand (before : Report) (outcome : Outcome) (next : Node → Report → Except Pause Outcome) :
    Except Pause Outcome :=
  match outcome with
  | .value node report => next node (before.join report)
  | stopped => .ok (stopped.after before)

end Outcome

/-! Lambdas. -/

structure Lambda where
  parameters : List String
  body : Expression
  captured : List (String × Node)

namespace Lambda

def ofParsed? (binding : Binding) (source : String) : Except Issue Lambda :=
  match Expression.parse ("lambda " ++ source) binding.path with
  | .ok (.lambda parameters body) => .ok ⟨parameters, body, []⟩
  | .ok _ => .error (.lambdaText source)
  | .error error => .error (.lambdaSource source error)

/-- A lambda, or a text that starts with the bar of its parameters. -/
def ofValue (binding : Binding) : Value → Except Issue Lambda
  | .lambda parameters body captured => .ok ⟨parameters, body, captured⟩
  | .text source =>
      if (Text.trimStart source.toList).head? = some '|' then ofParsed? binding source
      else .error (.lambdaKind .text)
  | value => .error (.lambdaKind value.kind)

/-- Evaluate the body where the lambda is called. The arguments hide captured names. -/
def invoke (evaluator : Evaluator) (binding : Binding) (lambda : Lambda)
    (arguments : List Node) : Except Pause Outcome :=
  if arguments.length ≠ lambda.parameters.length then
    .ok (.ofIssue (.lambdaArguments lambda.parameters.length arguments.length))
  else
    let names := Table.mergeSorted lambda.captured (lambda.parameters.zip arguments)
    evaluator (binding.withLocals names) lambda.body

/-- One call after the other, until one has no value. -/
def invokeAll (evaluator : Evaluator) (binding : Binding) (lambda : Lambda) :
    List (List Node) → Report → Except Pause Operands
  | [], report => .ok (.ok ([], report))
  | arguments :: calls, report => do
      match ← lambda.invoke evaluator binding arguments with
      | .value node next =>
          return (← invokeAll evaluator binding lambda calls (report.join next)).map
            fun (nodes, report) => (node :: nodes, report)
      | stopped => return .error (stopped.after report)

end Lambda

/-! Mappings: one call per entry of a list, or per field of a map in the order of
its keys. A lambda with two parameters also gets the index or the key. -/

namespace Mapping

def callsFrom (source : Option String) (keyed : Bool) (index : Nat) :
    List Node → List (List Node)
  | [] => []
  | entry :: entries =>
      (if keyed then [.ofSource source (.integer (Int64.ofNat index)), entry] else [entry])
        :: callsFrom source keyed (index + 1) entries

/-- The arguments of each call. -/
def calls (source : Option String) (keyed : Bool) : Value → Except Issue (List (List Node))
  | .list entries => .ok (callsFrom source keyed 0 entries)
  | .map fields =>
      .ok ((Table.mergeSorted [] fields).map fun (key, field) =>
        if keyed then [.ofSource source (.text key), field] else [field])
  | .null => .ok []
  | value => .error (.mappingCollection value.kind)

/-- The lambda of a mapping, and the arguments of its calls. -/
def plan (binding : Binding) (collection function : Node) :
    Except Issue (Lambda × List (List Node)) := do
  let lambda ← Lambda.ofValue binding function.value
  let count := lambda.parameters.length
  if count ≠ 1 ∧ count ≠ 2 then throw (.mappingParameters count)
  return (lambda, ← calls binding.source (count == 2) collection.value)

def outcome (evaluator : Evaluator) (binding : Binding) (collection function : Node)
    (report : Report) : Except Pause Outcome :=
  match plan binding collection function with
  | .error issue => .ok ((Outcome.ofIssue issue).after report)
  | .ok (lambda, calls) => do
      match ← lambda.invokeAll evaluator binding calls report with
      | .ok (nodes, report) => return (Outcome.ofValue binding.source (.list nodes)).after report
      | .error stopped => return stopped

end Mapping

/-! Functions that are called by their name. -/

/-- `eval` reads its argument as an expression at the place of the call. -/
def evaluateText (evaluator : Evaluator) (binding : Binding) : List Node → Except Pause Outcome
  | [argument] =>
      match Arguments.text .evaluate 0 argument with
      | .error issue => .ok (.ofIssue issue)
      | .ok text =>
          match Expression.parse ((Text.embedded? text).getD text) binding.path with
          | .ok expression => evaluator binding expression
          | .error error => .ok (.ofIssue (.evaluated error))
  | arguments => .ok (.ofIssue (.argumentCount .evaluate arguments.length))

def Builtin.apply (evaluator : Evaluator) (binding : Binding) (arguments : List Node) :
    Builtin → Except Pause Outcome
  | .staticIps => .ok (.ofResult binding.source (do
      orIssue (Arguments.checkCount .staticIps arguments)
      AddressFunction.staticAddresses binding arguments))
  | .minIp => plain (AddressFunction.least arguments)
  | .maxIp => plain (AddressFunction.greatest arguments)
  | .numIp => plain (AddressFunction.count arguments)
  | .environment => HostFunction.environment binding arguments
  | .read => HostFunction.read binding arguments
  | .execute => HostFunction.execute binding arguments
  | .evaluate => evaluateText evaluator binding arguments
  | .split => plain (TextFunction.split binding.source arguments)
  | .join => plain (TextFunction.join arguments)
  | .trim => plain (TextFunction.trim arguments)
  | .format => do plain (← TextFunction.format arguments)
  | .error => do return .ofIssue (← TextFunction.error arguments)
  | .length => plain (TextFunction.length arguments)
where
  plain (result : Except Issue Value) : Except Pause Outcome :=
    .ok (.ofResult binding.source (orIssue result))

namespace Expression

/-- The function that a plain name calls. -/
def builtin? : Expression → Option Builtin
  | .reference [name] => Builtin.ofName? name
  | _ => none

def binaryOutcome (source : Option String) (operator : Operator) (left right : Node)
    (report : Report) : Outcome :=
  (Outcome.ofResult source (orIssue (Value.operate operator left.value right.value))).after report

mutual
def evaluateWith (evaluator : Evaluator) (binding : Binding) :
    Expression → Except Pause Outcome
  | .nil => .ok (.ofValue binding.source .null)
  | .boolean value => .ok (.ofValue binding.source (.boolean value))
  | .integer value => .ok (.ofValue binding.source (.integer value))
  | .text value => .ok (.ofValue binding.source (.text value))
  | .list entries => do
      match ← operands evaluator binding {} entries with
      | .ok (nodes, report) => return (Outcome.ofValue binding.source (.list nodes)).after report
      | .error stopped => return stopped
  | .reference path => .ok (binding.referenceOutcome path)
  | .merge path redirected replacing =>
      .ok (binding.mergeOutcome path redirected replacing)
  | .auto path => .ok (binding.autoOutcome path)
  | .group inner => evaluateWith evaluator binding inner
  | .binary operator left right => do
      let first ← evaluateWith evaluator binding left
      match operator with
      | .fallback =>
          -- A failure is forgotten; what is not resolved yet waits.
          match first with
          | .failed _ => evaluateWith evaluator binding right
          | outcome => return outcome
      | .and | .or =>
          first.bind fun node report =>
            match Value.decided? operator node.value with
            | some truth => return (Outcome.ofValue binding.source (.boolean truth)).after report
            | none => do
                ((← evaluateWith evaluator binding right).after report).bind fun other report =>
                  return (Outcome.ofValue binding.source
                    (Value.combine operator node.value other.value)).after report
      | _ =>
          first.operand {} fun node report => do
            (← evaluateWith evaluator binding right).operand report fun other report =>
              return binaryOutcome binding.source operator node other report
  | .not operand => do
      (← evaluateWith evaluator binding operand).bind fun node report =>
        return (Outcome.ofValue binding.source (.boolean !node.value.truthy)).after report
  | .conditional condition consequence alternative => do
      (← evaluateWith evaluator binding condition).bind fun node report =>
        if node.value.truthy then
          return (← evaluateWith evaluator binding consequence).after report
        else return (← evaluateWith evaluator binding alternative).after report
  | .call function arguments => do
      match function.builtin? with
      | some builtin =>
          match ← operands evaluator binding {} arguments with
          | .ok (nodes, report) =>
              return (← builtin.apply evaluator binding nodes).after report
          | .error stopped => return stopped
      | none =>
          (← evaluateWith evaluator binding function).bind fun node report =>
            match Lambda.ofValue binding node.value with
            | .error issue => return (Outcome.ofIssue issue).after report
            | .ok callee => do
                match ← operands evaluator binding {} arguments with
                | .ok (nodes, next) =>
                    return (← callee.invoke evaluator binding nodes).after (report.join next)
                | .error stopped => return stopped.after report
  | .lambda parameters body =>
      .ok (.ofValue binding.source (.lambda parameters body binding.locals))
  | .mapping collection function => do
      (← evaluateWith evaluator binding collection).operand {} fun node report => do
        (← evaluateWith evaluator binding function).operand report fun other report =>
          Mapping.outcome evaluator binding node other report
  | .prefer inner => do
      match ← evaluateWith evaluator binding inner with
      | .value node report => return .value node { report with preferred := true }
      | stopped => return stopped

def operands (evaluator : Evaluator) (binding : Binding) (report : Report) :
    List Expression → Except Pause Operands
  | [] => .ok (.ok ([], report))
  | entry :: entries => do
      match ← evaluateWith evaluator binding entry with
      | .value node next =>
          return (← operands evaluator binding (report.join next) entries).map
            fun (nodes, report) => (node :: nodes, report)
      | stopped => return .error (stopped.after report)
end

/-- Evaluation whose calls of lambdas and of `eval` may be nested this deeply. -/
def evaluate : Nat → Evaluator
  | 0 => fun _ _ => .error .depth
  | depth + 1 => evaluateWith (evaluate depth)

/-- How deeply calls may be nested. -/
def callDepth : Nat := 100000

end Expression

end Stencil
