import Mathlib
import Stencil.Proofs.Resolution.Overriding

namespace Stencil

/-! The size of a resource pool. `auto` waits for the expressions that it comes upon among the
jobs, but not for merges that may still bring jobs and fields. It leaves the sum over the jobs of
the document before one pass. In the result that is the sum as well, unless a merge among these
jobs was pending. -/

namespace Node

/-- The instances of a job, if that is an integer. -/
def instances? (job : Node) : Option Int :=
  match (job.get? "instances").map value with
  | some (.integer count) => some count.toInt
  | _ => none

/-- What a job counts for a pool. -/
def instancesFor? (pool : String) (job : Node) : Option Int :=
  if job.findText? "resource_pool" = some pool then job.instances? else some 0

/-- The entries of the list of jobs. -/
def jobs? (document : Node) : Option (List Node) :=
  match (document.get? "jobs").map value with
  | some (.list jobs) => some jobs
  | _ => none

end Node

/-- The instances of all jobs of a pool together. -/
def jobsTotal? (pool : String) (jobs : List Node) : Option Int :=
  (jobs.mapM (Node.instancesFor? pool)).map List.sum

def Node.poolTotal? (document : Node) (pool : String) : Option Int :=
  document.jobs?.bind (jobsTotal? pool)

/-- No merge is pending in the job, and neither the job nor its pool is an expression. -/
def Node.isSettledJob (job : Node) : Bool :=
  job.isLocallyResolved && job.isMerged && (job.get? "resource_pool").all Node.isLocallyResolved

/-- No merge is pending among the jobs. -/
def Node.jobsMerged (document : Node) : Bool :=
  document.jobs?.all fun jobs => jobs.all Node.isMerged

def Node.jobsSettled (document : Node) : Bool :=
  document.jobs?.all fun jobs => jobs.all Node.isSettledJob

theorem Node.isSettledJob_iff {job : Node} :
    job.isSettledJob ↔ job.isLocallyResolved ∧ job.isMerged ∧
      (job.get? "resource_pool").all Node.isLocallyResolved := by
  rw [isSettledJob, Bool.and_eq_true, Bool.and_eq_true, and_assoc]

theorem jobsTotal?_cons {pool : String} {job : Node} {jobs : List Node} {sum : Int} :
    jobsTotal? pool (job :: jobs) = some sum ↔
      ∃ count rest, job.instancesFor? pool = some count ∧ jobsTotal? pool jobs = some rest ∧
        sum = count + rest := by
  unfold jobsTotal?
  cases here : job.instancesFor? pool with
  | none => simp [here]
  | some count =>
      cases others : jobs.mapM (Node.instancesFor? pool) with
      | none => simp [here, others]
      | some counts => simp [here, others, eq_comm]

theorem Node.jobs?_eq_some_iff {document : Node} {jobs : List Node} :
    document.jobs? = some jobs ↔
      ∃ annotations, document.get? "jobs" = some (.mk (.list jobs) annotations) := by
  unfold jobs?
  cases held : document.get? "jobs" with
  | none => simp
  | some found =>
      rcases found with ⟨value, annotations⟩
      cases value <;> simp

/-! ## The sum -/

namespace Binding

variable {pool : String} {total size : Int64} {index : Nat} {job : Node} {jobs : List Node}

/-- What is counted for a job is what it has, and neither the job nor its pool is an
expression. -/
theorem jobInstances_counts {count? : Option Int64}
    (counted : jobInstances pool index job = .ok count?) :
    job.isLocallyResolved ∧ (job.get? "resource_pool").all Node.isLocallyResolved ∧
      job.instancesFor? pool = some (count?.elim 0 Int64.toInt) := by
  unfold Node.instancesFor? Node.findText?
  revert counted
  fun_cases jobInstances pool index job with
  | case1 | case3 | case5 | case6 | case8 =>
      intro counted
      cases counted
  | case2 resolved absent =>
      rintro ⟨⟩
      rw [absent]
      exact ⟨by simpa using resolved, rfl, rfl⟩
  | case4 resolved named held whole name text other =>
      rintro ⟨⟩
      rw [held, Option.map_some, text]
      exact ⟨by simpa using resolved, by simpa using whole, if_neg (by simpa using other)⟩
  | case7 resolved named held whole name text own count present integer value amount =>
      rintro ⟨⟩
      rw [held, Option.map_some, text]
      refine ⟨by simpa using resolved, by simpa using whole, ?_⟩
      rw [if_pos (by simpa using own), Node.instances?, present, Option.map_some, amount]
      rfl
  | case9 resolved named held whole noText =>
      rintro ⟨⟩
      rw [held, Option.map_some]
      refine ⟨by simpa using resolved, by simpa using whole, ?_⟩
      rcases named with ⟨value, annotations⟩
      cases value with
      | text name => exact (noText name rfl).elim
      | _ => rfl

/-- The sum is exact. -/
theorem poolSize_total (summed : poolSize pool total index jobs = .ok size) :
    (∀ job ∈ jobs, job.isLocallyResolved ∧
      (job.get? "resource_pool").all Node.isLocallyResolved) ∧
    ∃ sum, jobsTotal? pool jobs = some sum ∧ size.toInt = total.toInt + sum := by
  induction jobs generalizing total index with
  | nil =>
      cases summed
      exact ⟨List.forall_mem_nil _, 0, rfl, (Int.add_zero _).symm⟩
  | cons job jobs induction =>
      rw [poolSize] at summed
      rcases ok_of_bind summed with ⟨count?, counted, summed⟩
      rcases jobInstances_counts counted with ⟨resolved, named, counts⟩
      rw [List.forall_mem_cons]
      cases count? with
      | none =>
          rcases induction summed with ⟨others, sum, rest, exactly⟩
          refine ⟨⟨⟨resolved, named⟩, others⟩, sum, ?_, exactly⟩
          exact jobsTotal?_cons.mpr ⟨0, sum, counts, rest, (Int.zero_add sum).symm⟩
      | some count =>
          simp only at summed
          split at summed
          · rename_i next fits
            rcases induction summed with ⟨others, sum, rest, exactly⟩
            refine ⟨⟨⟨resolved, named⟩, others⟩, count.toInt + sum, ?_, ?_⟩
            · exact jobsTotal?_cons.mpr ⟨count.toInt, sum, counts, rest, rfl⟩
            · rw [exactly, Number.word?_eq_some_iff.mp fits, Int.add_assoc]
          · cases summed

/-- A size is the exact sum over the jobs that were found. -/
theorem autoSize_total {binding : Binding} {value : Value}
    (computed : binding.autoSize pool = .ok value) :
    ∃ jobs annotations size, binding.findFromRoot ["jobs"] = .found (.mk (.list jobs) annotations) ∧
      value = .integer size ∧ jobsTotal? pool jobs = some size.toInt ∧
      ∀ job ∈ jobs, job.isLocallyResolved ∧
        (job.get? "resource_pool").all Node.isLocallyResolved := by
  unfold autoSize at computed
  cases found : binding.findFromRoot ["jobs"] with
  | unresolved | missing =>
      rw [found] at computed
      cases computed
  | found node =>
      rcases node with ⟨held, annotations⟩
      rw [found] at computed
      cases held with
      | list jobs =>
          rcases ok_of_map computed with ⟨size, summed, rfl⟩
          rcases poolSize_total summed with ⟨settled, sum, total, exactly⟩
          have zero : (0 : Int64).toInt = 0 := rfl
          rw [zero, Int.zero_add] at exactly
          exact ⟨jobs, annotations, size, rfl, rfl, exactly ▸ total, settled⟩
      | _ =>
          simp only [Node.value_mk] at computed
          split at computed <;> cases computed

/-- An `auto` that has a value stands at the size of a pool. -/
theorem autoSize_of_outcome {binding : Binding} {value : Node} {report : Report}
    (outcome : binding.autoOutcome ["resource_pools", pool, "size"] = .value value report) :
    binding.autoSize pool = .ok value.value := by
  cases computed : binding.autoSize pool with
  | ok result =>
      simp only [autoOutcome, computed] at outcome
      cases outcome
      rfl
  | error obstacle =>
      simp only [autoOutcome, computed] at outcome
      cases obstacle <;> cases outcome

end Binding

namespace Node

/-- The maps around a position are scopes around those that there were. -/
theorem scopes_of_reach {binding site : Binding} {node leaf : Node} {route : List Step}
    (reached : node.reach binding route = some (site, leaf)) :
    ∃ inner, site.scopes = inner ++ binding.scopes := by
  refine reach_induction (motive := fun site _ => ∃ inner, site.scopes = inner ++ binding.scopes)
    ?_ ⟨[], rfl⟩ reached
  rintro place _ _ _ _ ⟨inner, same⟩ found
  rcases descend_cases found with ⟨_, fields, _, _, _, _, rfl⟩ | ⟨_, _, _, _, _, _, rfl⟩
  · exact ⟨fields :: inner, congrArg (fields :: ·) same⟩
  · exact ⟨inner, same⟩

/-- The outermost map is the document. -/
theorem findFromRoot_of_reach {binding site : Binding} {document leaf : Node} {key : String}
    {route : List Step} (outermost : binding.scopes = [])
    (reached : document.reach binding (.field key :: route) = some (site, leaf)) (step : String) :
    site.findFromRoot [step] = .ofOption (document.get? step) := by
  rcases reach_cons reached with ⟨place, child, first, rest⟩
  rcases descend_cases first with ⟨_, fields, annotations, _, rfl, _, rfl⟩ | ⟨_, _, _, same, _⟩
  · rcases scopes_of_reach rest with ⟨inner, scopes⟩
    have last : site.scopes.getLast? = some fields := by
      rw [scopes, Binding.withPath, Binding.withScope, outermost]
      exact List.getLast?_concat
    have held : (mk (.map fields) annotations).get? step = fields.lookup step := rfl
    rw [Binding.findFromRoot, last, Option.bind_some, Binding.findIn, held]
    cases fields.lookup step <;> rfl
  · cases same

end Node

/-! ## The passes -/

namespace Node

/-- No name of a list entry on the way to a position is an expression. -/
def isNamedAlong : Node → List Step → Bool
  | _, [] => true
  | node, step :: route =>
      (node.below? step).all fun child =>
        (match step with
          | .field _ => true
          | .entry _ => (child.get? "name").all isLocallyResolved) && child.isNamedAlong route

/-- A collection without markers is merged. -/
theorem merged_of_below {node child : Node} {step : Step} (found : node.below? step = some child)
    (unmarked : node.isUnmarked) : node.isLocallyResolved ∧ node.isMerged := by
  rcases below?_cases found with
    ⟨_, fields, annotations, _, rfl, _⟩ | ⟨_, entries, annotations, _, rfl, _⟩
  · exact ⟨rfl, isMerged_of_get? (Option.isNone_iff_eq_none.mp unmarked)⟩
  · exact ⟨rfl, rfl⟩

/-- A node on the way is a collection without markers, and the end of the way is no map. -/
theorem around_of_reach {binding later site site' : Binding} {node node' leaf leaf' : Node}
    {route : List Step} (unmarked : ∀ above ∈ node.above route, above.isUnmarked)
    (flat : leaf.kind ≠ .map) (flat' : leaf'.kind ≠ .map)
    (reached : node.reach binding route = some (site, leaf))
    (reached' : node'.reach later route = some (site', leaf')) :
    node.kind ≠ .map ∧ node'.kind ≠ .map ∨ node.isLocallyResolved ∧ node.isMerged := by
  cases route with
  | nil =>
      cases reached
      cases reached'
      exact .inl ⟨flat, flat'⟩
  | cons step route =>
      rcases reach_cons reached with ⟨_, _, first, _⟩
      have below := below?_of_descend first
      rw [above_cons below, List.forall_mem_cons] at unmarked
      exact .inr (merged_of_below below unmarked.1)

end Node

namespace Pass

variable {evaluator : Evaluator} {binding : Binding} {mode : Override} {pool : String}

/-- A settled job goes on to count the same. -/
theorem visit_job {job job' : Node} (quiet : mode ≠ .all) (settled : job.isSettledJob)
    (ends : visit evaluator binding mode job = .ok job') :
    job'.isSettledJob ∧
      ∀ count, job.instancesFor? pool = some count → job'.instancesFor? pool = some count := by
  rcases Node.isSettledJob_iff.mp settled with ⟨resolved, merged, named⟩
  rcases visit_findText? quiet resolved merged named ends with ⟨named', same⟩
  refine ⟨Node.isSettledJob_iff.mpr ⟨visit_isLocallyResolved quiet resolved ends,
    visit_isMerged quiet resolved merged ends, named'⟩, fun count counts => ?_⟩
  rw [Node.instancesFor?, same]
  rw [Node.instancesFor?] at counts
  split
  · rename_i own
    rw [if_pos own, Node.instances?] at counts
    rw [Node.instances?]
    rcases visit_get? quiet resolved merged ends "instances" with
      ⟨absent, absent'⟩ | ⟨amount, amount', below, mode', quiet, held, found, visited⟩
    · rw [absent']
      rwa [absent] at counts
    · rcases amount with ⟨value, annotations⟩
      rw [held] at counts
      cases value with
      | integer value =>
          rcases visit_cases quiet rfl visited with rfl | ⟨kind | kind, _⟩
          · rwa [found]
          · cases kind
          · cases kind
      | _ => cases counts
  · rename_i other
    rwa [if_neg other] at counts

theorem visit_jobs {jobs jobs' : List Node} {index : Nat} (quiet : mode ≠ .all)
    (settled : ∀ job ∈ jobs, job.isSettledJob)
    (ends : visitEntries evaluator binding mode false index (jobs.map fun _ => .visit) jobs =
      .ok jobs') :
    (∀ job ∈ jobs', job.isSettledJob) ∧
      ∀ sum, jobsTotal? pool jobs = some sum → jobsTotal? pool jobs' = some sum := by
  induction jobs generalizing index jobs' with
  | nil =>
      rw [List.map_nil, visitEntries] at ends
      cases ends
      exact ⟨List.forall_mem_nil _, fun _ => id⟩
  | cons job jobs induction =>
      rcases visitEntries_visit_ends ends with ⟨job', rest, rfl, visited, others⟩
      rw [List.forall_mem_cons] at settled
      rcases visit_job quiet settled.1 visited with ⟨here, counts⟩
      rcases induction settled.2 others with ⟨below, totals⟩
      refine ⟨List.forall_mem_cons.mpr ⟨here, below⟩, fun sum total => ?_⟩
      rcases jobsTotal?_cons.mp total with ⟨count, sum, own, rest, rfl⟩
      exact jobsTotal?_cons.mpr ⟨count, sum, counts count own, totals sum rest, rfl⟩

/-! What is around the size keeps its place. -/

/-- Nodes that have a name keep it, when neither is a map or no merge is pending. -/
theorem visit_name {node node' : Node} (quiet : mode ≠ .all)
    (around : node.kind ≠ .map ∧ node'.kind ≠ .map ∨ node.isLocallyResolved ∧ node.isMerged)
    (settled : (node.get? "name").all Node.isLocallyResolved)
    (ends : visit evaluator binding mode node = .ok node') :
    (node'.get? "name").all Node.isLocallyResolved ∧ node'.name? = node.name? := by
  rcases around with ⟨flat, flat'⟩ | ⟨resolved, merged⟩
  · rw [Node.name?, Node.name?, Node.findText?, Node.findText?, Node.get?_of_kind flat,
      Node.get?_of_kind flat']
    exact ⟨rfl, rfl⟩
  · exact visit_findText? quiet resolved merged settled ends

/-- Along a route of collections without markers and redirects, on which no name is an
expression, a node is visited in place and keeps its path. -/
theorem visit_named {site : Binding} {node node' leaf : Node} {route : List Step}
    (quiet : mode ≠ .all) (own : ∀ above ∈ node.above route, above.isOwn)
    (unmarked : ∀ above ∈ node.above route, above.isUnmarked) (named : node.isNamedAlong route)
    (flat : leaf.kind ≠ .map) (reached : node.reach binding route = some (site, leaf))
    (ends : visit evaluator binding mode node = .ok node') :
    ∃ leaf', visit evaluator site mode leaf = .ok leaf' ∧
      (∀ above ∈ node'.above route, above.isOwn) ∧
      ∀ later, ∃ site', node'.reach later route = some (site', leaf') ∧
        (leaf'.kind ≠ .map → node'.isNamedAlong route ∧
          (later.path = binding.path → site'.path = site.path)) := by
  induction route generalizing node node' binding with
  | nil =>
      cases reached
      exact ⟨node', ends, (fun _ member => nomatch member),
        fun later => ⟨later, rfl, fun _ => ⟨rfl, id⟩⟩⟩
  | cons step route induction =>
      rcases Node.reach_cons reached with ⟨place, child, first, rest⟩
      have below := Node.below?_of_descend first
      rw [Node.above_cons below, List.forall_mem_cons] at own unmarked
      rw [Node.isNamedAlong, below, Option.all_some, Bool.and_eq_true] at named
      rcases visit_step own.1 unmarked.1 first ends with ⟨child', visited, own', below'⟩
      rcases induction own.2 unmarked.2 named.2 rest visited with ⟨leaf', here, others', reaches⟩
      refine ⟨leaf', here, ?_, fun later => ?_⟩
      · rw [Node.above_cons below', List.forall_mem_cons]
        exact ⟨own', others'⟩
      · rcases Node.descend_of_below? below' later with ⟨place', first'⟩
        rcases reaches place' with ⟨site', reached', settled⟩
        rw [Node.reach_of_descend first']
        refine ⟨site', reached', fun flat' => ?_⟩
        have around := Node.around_of_reach unmarked.2 flat flat' rest reached'
        have name (entry : ∃ index, step = .entry index) :
            (child'.get? "name").all Node.isLocallyResolved ∧ child'.name? = child.name? := by
          rcases entry with ⟨index, rfl⟩
          exact visit_name quiet around named.1 visited
        refine ⟨?_, fun same => (settled flat').2 (Node.path_of_descend first first' same
          fun entry => (name entry).2)⟩
        rw [Node.isNamedAlong, below', Option.all_some, Bool.and_eq_true]
        refine ⟨?_, (settled flat').1⟩
        cases step with
        | field key => rfl
        | entry index => exact (name ⟨index, rfl⟩).1

end Pass

/-! ## Runs -/

namespace Resolution

variable {answers : Answers} {stubs : List Node} {template before after node : Node}
  {route : List Step} {path : List String} {pool : String}

/-- A node that keeps its path: no merge comes to the collections around it, and no name on the
way is an expression. -/
structure Stands (answers : Answers) (stubs : List Node) (document : Node) (route : List Step)
    (path : List String) (node : Node) : Prop where
  sheltered : Sheltered answers stubs document route
  own : ∀ above ∈ document.above route, above.isOwn
  named : document.isNamedAlong route
  position : ∃ site, document.reach (root answers stubs) route = some (site, node) ∧
    site.path = path

/-- A pass visits the node in place, and there it goes on to stand. -/
theorem Stands.step (stands : Stands answers stubs before route path node) (flat : node.kind ≠ .map)
    (pass : Pass.run answers stubs before = .ok after) :
    ∃ site node', before.reach (root answers stubs) route = some (site, node) ∧ site.path = path ∧
      Pass.visit (Expression.evaluate Expression.callDepth) site .expressions node = .ok node' ∧
      (node'.kind ≠ .map → Stands answers stubs after route path node') := by
  rcases stands.position with ⟨site, reached, atPath⟩
  rcases Pass.visit_named Override.expressions_ne_all stands.own stands.sheltered.isUnmarked
      stands.named flat reached pass with ⟨node', visited, own, reaches⟩
  rcases reaches (root answers stubs) with ⟨site', reached', settled⟩
  refine ⟨site, node', reached, atPath, visited, fun flat' => ?_⟩
  exact ⟨stands.sheltered.step (Node.at?_of_reach reached) pass, own, (settled flat').1,
    site', reached', ((settled flat').2 rfl).trans atPath⟩

/-- Settled jobs of the one document are so in the other one, and count the same there. -/
def CountsAs (pool : String) (before after : Node) : Prop :=
  ∀ jobs, before.jobs? = some jobs → (∀ job ∈ jobs, job.isSettledJob) →
    ∃ jobs', after.jobs? = some jobs' ∧ (∀ job ∈ jobs', job.isSettledJob) ∧
      ∀ sum, jobsTotal? pool jobs = some sum → jobsTotal? pool jobs' = some sum

theorem CountsAs.refl (document : Node) : CountsAs pool document document :=
  fun jobs held settled => ⟨jobs, held, settled, fun _ => id⟩

theorem CountsAs.trans {first second third : Node} (early : CountsAs pool first second)
    (late : CountsAs pool second third) : CountsAs pool first third := by
  intro jobs held settled
  rcases early jobs held settled with ⟨jobs', held', settled', totals⟩
  rcases late jobs' held' settled' with ⟨jobs'', held'', settled'', totals'⟩
  exact ⟨jobs'', held'', settled'', fun sum total => totals' sum (totals sum total)⟩

theorem CountsAs.poolTotal (counts : CountsAs pool before after) (settled : before.jobsSettled)
    {sum : Int} (total : before.poolTotal? pool = some sum) : after.poolTotal? pool = some sum := by
  rcases Option.bind_eq_some_iff.mp total with ⟨jobs, held, total⟩
  rw [Node.jobsSettled, held, Option.all_some, List.all_eq_true] at settled
  rcases counts jobs held settled with ⟨jobs', held', _, totals⟩
  rw [Node.poolTotal?, held', Option.bind_some]
  exact totals sum total

theorem run_counts (root : before.isLocallyResolved ∧ before.isMerged)
    (pass : Pass.run answers stubs before = .ok after) : CountsAs pool before after := by
  intro jobs held settled
  rcases Node.jobs?_eq_some_iff.mp held with ⟨annotations, held⟩
  rcases Pass.visit_get? Override.expressions_ne_all root.1 root.2 pass "jobs" with
    ⟨absent, _⟩ | ⟨list, list', below, mode, quiet, held', found, ends⟩
  · rw [held] at absent
    cases absent
  · cases held.symm.trans held'
    have markers : markersResolved jobs := markersResolved_of_merged fun job member =>
      (Node.isSettledJob_iff.mp (settled job member)).2.1
    rcases Pass.visit_list_ends markers ends with ⟨jobs', rfl, visited⟩
    have quiet := Override.entries_ne_all quiet annotations.replace
    exact ⟨jobs', Node.jobs?_eq_some_iff.mpr ⟨annotations, found⟩,
      Pass.visit_jobs quiet settled visited⟩

/-- In every document of a run a sheltered position is below a merged collection. -/
theorem treeAfter_root {step : Step} (sheltered : Sheltered answers stubs template (step :: route))
    (reached : template.at? (step :: route) = some node) {passes : Nat} {document : Node}
    (run : treeAfter answers stubs passes template = .ok document) :
    document.isLocallyResolved ∧ document.isMerged := by
  obtain ⟨⟨node, reached⟩, sheltered⟩ :
      (∃ node, document.at? (step :: route) = some node) ∧
        Sheltered answers stubs document (step :: route) := by
    refine treeAfter_invariant (motive := fun document =>
      (∃ node, document.at? (step :: route) = some node) ∧
        Sheltered answers stubs document (step :: route)) ⟨⟨node, reached⟩, sheltered⟩ ?_ run
    rintro before after ⟨⟨node, reached⟩, sheltered⟩ pass
    have kept := Pass.visit_sheltered Override.expressions_ne_all sheltered.isUnmarked reached pass
    exact ⟨kept.1, sheltered.step reached pass⟩
  rcases Node.at?_cons reached with ⟨child, below, _⟩
  refine Node.merged_of_below below (sheltered.isUnmarked document ?_)
  rw [Node.above_cons below]
  exact List.mem_cons_self

/-- From a settled document on the jobs of a pool count the same. -/
theorem treeAfter_counts {step : Step}
    (sheltered : Sheltered answers stubs template (step :: route))
    (reached : template.at? (step :: route) = some node) {early passes : Nat}
    (first : treeAfter answers stubs early template = .ok before)
    (last : treeAfter answers stubs (early + passes) template = .ok after) :
    CountsAs pool before after :=
  treeAfter_related CountsAs.refl (fun _ _ _ => CountsAs.trans)
    (fun _ _ run => treeAfter_root sheltered reached run) (fun _ _ => run_counts) first last

/-- What is resolved goes on to stand where it is. -/
theorem treeAfter_stands (flat : node.kind ≠ .map) (resolved : node.isResolved) {early passes : Nat}
    (stands : Stands answers stubs before route path node)
    (first : treeAfter answers stubs early template = .ok before)
    (last : treeAfter answers stubs (early + passes) template = .ok after) :
    Stands answers stubs after route path node := by
  induction passes generalizing after with
  | zero =>
      rw [Nat.add_zero, first] at last
      cases last
      exact stands
  | succ passes induction =>
      rcases treeAfter_pred last with ⟨middle, earlier, pass⟩
      rcases (induction earlier).step flat pass with ⟨site, node', _, _, visited, stays⟩
      rw [Pass.visit_of_isResolved node Override.expressions_ne_all resolved] at visited
      cases visited
      exact stays flat

/-- The node is an `auto` for the pool that may still get a value. -/
def Sizes (pool : String) (node : Node) : Prop :=
  node.expression? ["resource_pools", pool, "size"] =
    some (.ok (.auto ["resource_pools", pool, "size"])) ∧ node.redirect = none

/-- A pass leaves the `auto`, or the sum over the jobs before the pass. That is settled when no
merge was pending among them. -/
theorem run_sizes {key : String} (sizes : Sizes pool node)
    (stands : Stands answers stubs before (.field key :: route) ["resource_pools", pool, "size"]
      node)
    (alone : ∀ stub ∈ stubs, (stub.find ["resource_pools", pool, "size"]).found? = none)
    (pass : Pass.run answers stubs before = .ok after) :
    ∃ node',
      Stands answers stubs after (.field key :: route) ["resource_pools", pool, "size"] node' ∧
      (Sizes pool node' ∨ ∃ size, node'.value = .integer size ∧
        before.poolTotal? pool = some size.toInt ∧ (before.jobsMerged → before.jobsSettled)) := by
  rcases sizes with ⟨holds, direct⟩
  rcases stands.step (Node.leaf_of_expression holds).1 pass with
    ⟨site, node', reached, atPath, visited, stays⟩
  have none : site.findInStubs? site.stubPath = none := by
    rw [Node.stubPath_of_reach rfl reached, atPath, Node.findInStubs?_of_reach reached]
    exact List.findSome?_eq_none_iff.mpr alone
  rw [← atPath] at holds
  rcases Pass.visit_expression holds direct none visited with
    ⟨holds', direct'⟩ | ⟨value, report, evaluated, same⟩
  · rw [atPath] at holds'
    exact ⟨node', stays (Node.leaf_of_expression holds').1, .inl ⟨holds', direct'⟩⟩
  · have outcome : (site.withSource node.source).autoOutcome ["resource_pools", pool, "size"] =
        .value value report := by
      rw [← atPath]
      exact Except.ok.inj evaluated
    rcases Binding.autoSize_total (Binding.autoSize_of_outcome outcome) with
      ⟨jobs, annotations, size, found, isSize, total, settled⟩
    have list : before.get? "jobs" = some (.mk (.list jobs) annotations) := by
      have found : site.findFromRoot ["jobs"] = .found (.mk (.list jobs) annotations) := found
      rw [Node.findFromRoot_of_reach rfl reached] at found
      cases held : before.get? "jobs" with
      | none =>
          rw [held] at found
          cases found
      | some node =>
          rw [held] at found
          exact congrArg some (Lookup.found.inj found)
    have held := Node.jobs?_eq_some_iff.mpr ⟨annotations, list⟩
    rw [isSize] at same
    have flat : node'.kind ≠ .map := by
      rw [Node.kind, same]
      exact Kind.noConfusion
    refine ⟨node', stays flat, .inr ⟨size, same, ?_, fun merged => ?_⟩⟩
    · rw [Node.poolTotal?, held]
      exact total
    · rw [Node.jobsMerged, held, Option.all_some, List.all_eq_true] at merged
      rw [Node.jobsSettled, held, Option.all_some, List.all_eq_true]
      exact fun job member => Node.isSettledJob_iff.mpr
        ⟨(settled job member).1, merged job member, (settled job member).2⟩

/-- An `auto` that keeps its path, where no stub has anything, leaves the exact sum over the jobs
of its pool in the document before some pass. The result has the same sum when no merge was
pending among those jobs. Whatever was pending there, the result has the sum of every document
in which its jobs are settled, so the size is right exactly when it is that sum. -/
theorem pool_size {key : String} {leaf : Node} {resolution : Resolution}
    (stands : Stands answers stubs template (.field key :: route) ["resource_pools", pool, "size"]
      leaf)
    (sizes : Sizes pool leaf)
    (alone : ∀ stub ∈ stubs, (stub.find ["resource_pools", pool, "size"]).found? = none)
    (result : whole answers stubs template = .ok (.ok resolution)) :
    ∃ early before size site held, early < resolution.passes ∧
      treeAfter answers stubs early template = .ok before ∧
      before.poolTotal? pool = some size.toInt ∧
      resolution.document.reach (root answers stubs) (.field key :: route) = some (site, held) ∧
      site.path = ["resource_pools", pool, "size"] ∧ held.value = .integer size ∧
      (before.jobsMerged → resolution.document.poolTotal? pool = some size.toInt) ∧
      ∀ later after sum, later ≤ resolution.passes →
        treeAfter answers stubs later template = .ok after → after.jobsSettled →
        after.poolTotal? pool = some sum → resolution.document.poolTotal? pool = some sum := by
  rcases final_of_whole result with ⟨final, resolved⟩
  -- The `auto` stands at its place until a pass replaces it.
  let pending (document : Node) : Prop := ∃ node,
    Stands answers stubs document (.field key :: route) ["resource_pools", pool, "size"] node ∧
      Sizes pool node
  have done : ¬ pending resolution.document := by
    rintro ⟨node, stands, holds, _⟩
    rcases stands.position with ⟨site, reached, _⟩
    exact Node.not_expression_of_isResolved (Node.isResolved_of_reach resolved reached) holds
  obtain ⟨early, before, after, earlier, reachedBefore, ⟨node, standing, pendingSize⟩, pass,
    replaced⟩ := treeAfter_change ⟨leaf, stands, sizes⟩ final done
  rcases run_sizes pendingSize standing alone pass with
    ⟨held, standing, again | ⟨size, isSize, total, settled⟩⟩
  · exact absurd ⟨held, standing, again⟩ replaced
  -- From any document on, what is settled there counts the same.
  rcases stands.position with ⟨site, reached, _⟩
  have counts {later : Nat} {document : Node} (bounded : later ≤ resolution.passes)
      (run : treeAfter answers stubs later template = .ok document) :
      CountsAs pool document resolution.document := by
    rw [← Nat.add_sub_of_le bounded] at final
    exact treeAfter_counts stands.sheltered (Node.at?_of_reach reached) run final
  have flat : held.kind ≠ .map := by
    rw [Node.kind, isSize]
    exact Kind.noConfusion
  have whole : held.isResolved := by
    rcases held with ⟨value, annotations⟩
    cases isSize
    rfl
  have run := treeAfter_succ reachedBefore pass
  have last := final
  rw [← Nat.add_sub_of_le earlier] at last
  rcases (treeAfter_stands flat whole standing run last).position with ⟨site', there, atPath⟩
  refine ⟨early, before, size, site', held, earlier, reachedBefore, total, there, atPath, isSize,
    fun merged => ?_, fun later after sum bounded run settled total => ?_⟩
  · exact (counts (Nat.le_of_lt earlier) reachedBefore).poolTotal (settled merged) total
  · exact (counts bounded run).poolTotal settled total

/-- A map of scalars. -/
def row (fields : List (String × Value)) : Node :=
  .mk (.map (fields.map fun field => (field.1, .mk field.2 {}))) {}

/-- A document with one pool. -/
def pooled (size : Value) (jobs : List (List (String × Value))) : Node :=
  row [("resource_pools", .list [row [("name", .text "p"), ("size", size)]]),
    ("jobs", .list (jobs.map row))]

/-- The size waits for the instances of a job, and meanwhile another job is merged. -/
theorem pool_size_waiting :
    let template := pooled (.text "(( auto ))")
      [[("resource_pool", .text "p"), ("instances", .text "(( 1 + 1 ))")],
        [(markerKey, .text "(( merge ))")]]
    let stubs : List Node :=
      [row [("jobs", .list [row [("resource_pool", .text "p"), ("instances", .integer 3)]])]]
    ∃ resolution early before size site held,
      whole .none stubs template = .ok (.ok resolution) ∧ early < resolution.passes ∧
      treeAfter .none stubs early template = .ok before ∧
      before.poolTotal? "p" = some size.toInt ∧
      resolution.document.reach (root .none stubs)
        [.field "resource_pools", .entry 0, .field "size"] = some (site, held) ∧
      site.path = ["resource_pools", "p", "size"] ∧ held.value = .integer size ∧
      (before.jobsMerged → resolution.document.poolTotal? "p" = some size.toInt) ∧
      resolution.document.poolTotal? "p" = some 5 := by
  intro template stubs
  obtain ⟨resolution, result⟩ : ∃ resolution,
      found? (whole .none stubs template) = some resolution :=
    Option.isSome_iff_exists.mp (by decide +kernel)
  rw [found?_eq_some_iff] at result
  have several : (found? (whole .none stubs template)).all (1 ≤ ·.passes) := by decide +kernel
  rw [found?_eq_some_iff.mpr result, Option.all_some, decide_eq_true_iff] at several
  -- After the first pass the jobs are settled.
  obtain ⟨after, run, settled⟩ : ∃ after, (treeAfter .none stubs 1 template).toOption = some after ∧
      (after.jobsSettled && decide (after.poolTotal? "p" = some 5)) :=
    (Option.any_eq_true _ _).mp (by decide +kernel)
  rw [Bool.and_eq_true, decide_eq_true_iff] at settled
  have auto : (Node.mk (.text "(( auto ))") {}).expression? ["resource_pools", "p", "size"] =
      some (.ok (.auto ["resource_pools", "p", "size"])) := by cbv
  have stands : Stands .none stubs template [.field "resource_pools", .entry 0, .field "size"]
      ["resource_pools", "p", "size"] (.mk (.text "(( auto ))") {}) :=
    ⟨.closed (by decide), by decide, by decide, _, rfl, rfl⟩
  rcases pool_size stands ⟨auto, rfl⟩ (List.forall_mem_singleton.mpr rfl) result with
    ⟨early, before, size, site, held, earlier, reached, total, there, path, isSize, merged, later⟩
  refine ⟨resolution, early, before, size, site, held, result, earlier, reached, total, there, path,
    isSize, merged, later 1 after 5 several ?_ settled.1 settled.2⟩
  cases first : treeAfter .none stubs 1 template with
  | error pause =>
      rw [first] at run
      cases run
  | ok document =>
      rw [first] at run
      exact congrArg Except.ok (Option.some.inj run)

/-! A job that a merge brings in the pass that computes the size is not counted. -/

theorem pool_size_merging :
    ¬ ∀ (answers : Answers) (stubs : List Node) (template : Node) (resolution : Resolution)
        (route : List Step) (site : Binding) (leaf : Node) (pool : String),
      (∀ stub ∈ stubs, stub.isResolved) →
      template.reach (root answers stubs) route = some (site, leaf) →
      site.path = ["resource_pools", pool, "size"] →
      leaf.expression? site.path = some (.ok (.auto site.path)) →
      (∀ stub ∈ stubs, (stub.find site.path).found? = none) →
      whole answers stubs template = .ok (.ok resolution) →
      ∃ held size, (resolution.document.find site.path).found? = some held ∧
        held.value = .integer size ∧ resolution.document.poolTotal? pool = some size.toInt := by
  intro claim
  let template := pooled (.text "(( auto ))") [[(markerKey, .text "(( merge ))")]]
  let stubs : List Node := [row [("jobs", .list [row [("name", .text "a"),
    ("resource_pool", .text "p"), ("instances", .integer 2)]])]]
  have wrong : ((found? (whole .none stubs template)).bind fun resolution =>
      (resolution.document.find ["resource_pools", "p", "size"]).found?.map fun held =>
        (held.same (.mk (.integer 0) {}), resolution.document.poolTotal? "p")) =
      some (true, some 2) := by decide +kernel
  have auto : (Node.mk (.text "(( auto ))") {}).expression? ["resource_pools", "p", "size"] =
      some (.ok (.auto ["resource_pools", "p", "size"])) := by cbv
  rcases Option.bind_eq_some_iff.mp wrong with ⟨resolution, result, shown⟩
  rcases Option.map_eq_some_iff.mp shown with ⟨held, found, values⟩
  rcases claim .none stubs template resolution
      [.field "resource_pools", .entry 0, .field "size"] _ _ "p" (by decide) rfl rfl
      auto (List.forall_mem_singleton.mpr rfl)
      (found?_eq_some_iff.mp result) with ⟨held', size, found', isSize, total⟩
  cases found'.symm.trans found
  rw [Prod.mk.injEq] at values
  rcases held with ⟨value, annotations⟩
  cases isSize
  have zero : size = 0 := beq_iff_eq.mp values.1
  subst zero
  exact absurd (Option.some.inj (total.symm.trans values.2)) (by decide)

end Resolution

end Stencil
