import Stencil.Evaluation.Binding
import Stencil.Evaluation.Outcome
import Stencil.Number.Word

namespace Stencil

/-! Expressions that take their value from the document or from the stubs. -/

namespace Binding

/-- An empty first step leads to the outermost map. -/
def lookup (binding : Binding) (path : List String) : Lookup :=
  match path with
  | "" :: rest => binding.findFromRoot rest
  | path => binding.findReference path

/-- Only the value and the source are taken over, and only from a node without any
expression. -/
def referenceOutcome (binding : Binding) (path : List String) : Outcome :=
  match binding.lookup path with
  | .found node =>
      if node.isResolved then .value (.ofSource node.source node.value) {} else .waiting
  | .unresolved => .waiting
  | .missing => .ofIssue (.notFound path)

/-- The path a `merge` looks at: its own if it is redirected, or that of the place. -/
def mergePath (binding : Binding) (path : List String) (redirected : Bool) : List String :=
  if redirected then path else binding.stubPath

def mergeOutcome (binding : Binding) (path : List String) (redirected replacing : Bool) :
    Outcome :=
  let path := binding.mergePath path redirected
  match binding.findInStubs? path with
  | none => .ofIssue (.notInStubs path)
  | some found =>
      .value (.ofSource found.source found.value)
        { merged := true
          replace := replacing
          redirect := if redirected then some path else none
          source := found.source }

/-! The size of a resource pool is the sum of the instances of its jobs. -/

/-- The instances that a job at an index of the list counts for a pool, if any. -/
def jobInstances (pool : String) (index : Nat) (job : Node) : Except Obstacle (Option Int64) :=
  if !job.isLocallyResolved then .error .unresolved
  else
    match job.get? "resource_pool" with
    | none => .ok none
    | some named =>
        if !named.isLocallyResolved then .error .unresolved
        else
          match named.value with
          | .text name =>
              if name != pool then .ok none
              else
                match job.get? "instances" with
                | none => refuse (.noInstances (stepName index job))
                | some count =>
                    if !count.isLocallyResolved then .error .unresolved
                    else
                      match count.value with
                      | .integer value => .ok (some value)
                      | other => refuse (.instancesKind (stepName index job) other.kind)
          | _ => .ok none

/-- The sum so far and the instances of the jobs from an index on. -/
def poolSize (pool : String) (total : Int64) (index : Nat) : List Node → Except Obstacle Int64
  | [] => .ok total
  | job :: jobs => do
      match ← jobInstances pool index job with
      | none => poolSize pool total (index + 1) jobs
      | some count =>
          match Number.word? (total.toInt + count.toInt) with
          | some sum => poolSize pool sum (index + 1) jobs
          | none => refuse .overflow

def autoSize (binding : Binding) (pool : String) : Except Obstacle Value :=
  match binding.findFromRoot ["jobs"] with
  | .unresolved => .error .unresolved
  | .missing => refuse .noJobs
  | .found jobs =>
      match jobs.value with
      | .list entries => (poolSize pool 0 0 entries).map .integer
      | _ => if jobs.isLocallyResolved then refuse .jobsKind else .error .unresolved

/-- `auto` means something at the size of a resource pool only. -/
def autoOutcome (binding : Binding) (path : List String) : Outcome :=
  match path with
  | ["resource_pools", pool, "size"] => .ofResult binding.source (binding.autoSize pool)
  | _ => .ofIssue .autoPlace

end Binding

end Stencil
