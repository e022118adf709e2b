import Stencil.Node.Basic

namespace Stencil

/-! What an evaluation reports beside its value. `merged` marks what comes from a
stub, found at `redirect` if the path was given; `preferred` keeps stubs away. -/

structure Report where
  issue : Option Issue := none
  preferred : Bool := false
  merged : Bool := false
  replace : Bool := false
  redirect : Option (List String) := none
  source : Option String := none
deriving DecidableEq

namespace Report

def ofIssue (issue : Issue) : Report := { issue }

/-- Of two reports in a row the later issue and source win, a preference stays, and
nothing is merged any more. -/
def join (before after : Report) : Report where
  issue := after.issue <|> before.issue
  preferred := before.preferred || after.preferred
  source := after.source <|> before.source

theorem join_assoc (first second third : Report) :
    (first.join second).join third = first.join (second.join third) := by
  simp only [join, Bool.or_assoc]
  cases third.issue <;> cases second.issue <;> cases third.source <;> cases second.source <;> rfl

end Report

/-- A value, a reason to wait for another pass, or a reason why there is no value. -/
inductive Outcome where
  | value (node : Node) (report : Report)
  | deferred (report : Report)
  | failed (report : Report)

/-- Why a computation on values has no result. -/
inductive Obstacle where
  | unresolved
  | issue (cause : Issue)

def refuse {α : Type} (issue : Issue) : Except Obstacle α := .error (.issue issue)

namespace Outcome

def ofValue (source : Option String) (value : Value) : Outcome :=
  .value (.ofSource source value) {}

def ofIssue (issue : Issue) : Outcome := .failed (.ofIssue issue)

def waiting : Outcome := .deferred {}

def ofObstacle : Obstacle → Outcome
  | .unresolved => .waiting
  | .issue cause => .ofIssue cause

/-- The outcome of a computation on values, as a new node. -/
def ofResult (source : Option String) : Except Obstacle Value → Outcome
  | .ok result => .ofValue source result
  | .error obstacle => .ofObstacle obstacle

/-- The outcome with what was reported before it. -/
def after (before : Report) : Outcome → Outcome
  | .value node report =>
      .value node { before.join report with
        merged := report.merged, replace := report.replace, redirect := report.redirect }
  | .deferred report => .deferred (before.join report)
  | .failed report => .failed (before.join report)

/-- The node of a value. -/
def node? : Outcome → Option Node
  | .value node _ => some node
  | _ => none

end Outcome

/-- Issues are obstacles. -/
def orIssue {α : Type} : Except Issue α → Except Obstacle α
  | .ok value => .ok value
  | .error cause => .error (.issue cause)

end Stencil
