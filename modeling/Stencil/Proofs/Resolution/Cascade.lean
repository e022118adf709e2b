import Stencil.Proofs.Resolution.Around
import Stencil.Proofs.Resolution.Overriding
import Stencil.Proofs.Resolution.PlainMerge

namespace Stencil

/-! A cascade resolves every stub against the stubs after it, and then the template against
all of them. Where the stubs are finished it does nothing else than resolve the template. A
merge that stubs pass on takes what the first one of them has that has a value. -/

/-- Nothing is left to do: all is resolved, and the node equals itself. -/
structure Node.IsFinished (node : Node) : Prop where
  resolved : node.isResolved
  numbers : node.withoutNaN
  distinct : node.keysDistinct

namespace Resolution

variable {answers : Answers} {limit : Nat} {given later : List Node} {stub template : Node}

/-- A finished document settles in its first pass, also one with literal markers. -/
theorem partly_of_isFinished (finished : template.IsFinished) (positive : 0 < limit) :
    partly answers limit given template = .ok (.ok ⟨template, [], 1⟩) := by
  have complete := Node.unresolved_of_isResolved finished.resolved
  have same := template.same_self finished.distinct finished.numbers
  exact partly_of_isResolved finished.resolved complete same positive

theorem partly_without_passes : partly answers 0 given template = .ok (.error (.passLimit 0)) :=
  rfl

theorem stubs_cons (before : stubs answers limit given = .ok (.ok later)) :
    stubs answers limit (stub :: given) = (partly answers limit later stub).map fun result =>
      result.map fun resolution => resolution.document :: later := by
  rw [stubs, before]
  change (partly answers limit later stub >>= _) = _
  rcases partly answers limit later stub with pause | fault | resolution <;> rfl

/-- Finished stubs stay as they are. -/
theorem stubs_finished (finished : ∀ stub ∈ given, stub.IsFinished) (positive : 0 < limit) :
    stubs answers limit given = .ok (.ok given) := by
  induction given with
  | nil => rfl
  | cons stub given induction =>
      rw [List.forall_mem_cons] at finished
      rw [stubs_cons (induction finished.2), partly_of_isFinished finished.1 positive]
      rfl

theorem stubs_without_passes :
    stubs answers 0 (stub :: given) = .ok (.error (.passLimit 0)) := by
  induction given generalizing stub with
  | nil => rfl
  | cons next given induction => rw [stubs, induction]; rfl

theorem cascade_of_stubs (resolved : stubs answers limit given = .ok (.ok later))
    (allowPartial : Bool) :
    cascade answers limit allowPartial given template =
      (partly answers limit later template).map fun result =>
        result.bind fun resolution => if allowPartial then .ok resolution else resolution.complete := by
  rw [cascade, resolved]
  change (partly answers limit later template >>= _) = _
  rcases partly answers limit later template with pause | fault | resolution <;>
    cases allowPartial <;> rfl

/-- Over finished stubs a cascade is the resolution of the template, with or without passes
to make. -/
theorem cascade_of_isFinished (finished : ∀ stub ∈ given, stub.IsFinished) (allowPartial : Bool) :
    cascade answers limit allowPartial given template =
      (partly answers limit given template).map fun result =>
        result.bind fun resolution => if allowPartial then .ok resolution else resolution.complete := by
  rcases Nat.eq_zero_or_pos limit with rfl | positive
  · cases given with
    | nil => exact cascade_of_stubs rfl allowPartial
    | cons stub given => rw [cascade, stubs_without_passes, partly_without_passes]; rfl
  · exact cascade_of_stubs (stubs_finished finished positive) allowPartial

/-- A cascade over finished stubs gives what the template gives with these stubs: the same
fault, or the same document in as many passes. When all has to be resolved, what is left is an
error. -/
theorem cascade_finished (answers : Answers) (limit : Nat) (given : List Node) (template : Node)
    (finished : ∀ stub ∈ given, stub.IsFinished) :
    cascade answers limit true given template = partly answers limit given template ∧
    (∀ resolution, partly answers limit given template = .ok (.ok resolution) →
      cascade answers limit false given template =
        if resolution.document.unresolved = [] then .ok (.ok resolution)
        else .ok (.error (.unresolved resolution.document.unresolved))) ∧
    (∀ fault, partly answers limit given template = .ok (.error fault) →
      cascade answers limit false given template = .ok (.error fault)) ∧
    (∀ pause, partly answers limit given template = .error pause →
      cascade answers limit false given template = .error pause) := by
  refine ⟨?_, ?_, ?_, ?_⟩
  · rw [cascade_of_isFinished finished]
    rcases partly answers limit given template with pause | fault | resolution <;> rfl
  · intro resolution result
    rcases settled_of_partly result with ⟨last, settled⟩
    rw [cascade_of_isFinished finished, result, ← settled.unresolved]
    change Except.ok resolution.complete = _
    rw [complete, isComplete]
    by_cases complete : resolution.unresolved = []
    · rw [if_pos complete, complete]
      rfl
    · have pending : resolution.unresolved.isEmpty = false := by
        rwa [List.isEmpty_eq_false_iff]
      rw [if_neg complete, pending]
      rfl
  · intro fault result
    rw [cascade_of_isFinished finished, result]
    rfl
  · intro pause result
    rw [cascade_of_isFinished finished, result]
    rfl

/-- The stub has literal markers, and an expression of the template is left. -/
theorem cascade_finished_literal :
    let marked (value : Value) : Node := .mk (.map [(markerKey, .mk value {})]) {}
    let list : Node := .mk (.list [marked (.integer 2)]) {}
    let stub : Node := .mk (.map [(markerKey, .mk (.integer 1) {}), ("a", list)]) {}
    let document (first second : Node) : Node := .mk (.map [("a", first), ("b", second)]) {}
    let template := document (.mk (.expression (.merge ["a"] false false)) {})
      (.mk (.expression (.reference ["c"])) {})
    let result := document list
      (.mk (.expression (.reference ["c"])) { issue := some (.notFound ["c"]) })
    let resolution : Resolution := ⟨result, result.unresolved, 2⟩
    cascade .none 2 true [stub] template = .ok (.ok resolution) ∧
      cascade .none 2 false [stub] template = .ok (.error (.unresolved result.unresolved)) := by
  intro marked list stub document template result resolution
  have finished : ∀ stub' ∈ [stub], stub'.IsFinished :=
    List.forall_mem_singleton.mpr ⟨by decide, by decide, by decide⟩
  have direct : partly .none 2 [stub] template = .ok (.ok resolution) := rfl
  have pending : result.unresolved ≠ [] := by decide +kernel
  have agrees := cascade_finished .none 2 [stub] template finished
  refine ⟨agrees.1.trans direct, ?_⟩
  rw [agrees.2.1 resolution direct, if_neg pending]

end Resolution

/-! ## Merges along the stubs -/

/-- A plain `merge`, as it is written or as an earlier pass left it. -/
structure Node.Inherits (leaf : Node) (keys : List String) : Prop where
  merges : ∃ path, leaf.expression? keys = some (.ok (.merge path false false))
  direct : leaf.redirect = none
  plain : leaf.annotations.preferred = false

/-- A map without marker, or a plain value that is no collection, where nothing is redirected
and nothing was replaced. -/
def Node.isPassage (node : Node) : Bool :=
  node.isOwn && node.isLocallyResolved && node.isClosed && node.kind != .list

/-- On the way down a path a stub has passages, and at its end a resolved node or a merge, if
it has anything there. -/
structure Node.Joins (stub : Node) (keys : List String) : Prop where
  passages : ∀ above ∈ stub.above (keys.map .field), above.isPassage
  ends : ∀ leaf, stub.at? (keys.map .field) = some leaf → leaf.isResolved ∨ leaf.Inherits keys

theorem Node.isPassage_iff {node : Node} :
    node.isPassage ↔
      node.isOwn ∧ node.isLocallyResolved ∧ node.isClosed ∧ node.kind ≠ .list := by
  simp [isPassage, and_assoc]

theorem Node.Inherits.unresolved {leaf : Node} {keys : List String} (inherits : leaf.Inherits keys) :
    leaf.isLocallyResolved = false := by
  rcases inherits.merges with ⟨path, holds⟩
  rw [← Bool.not_eq_true]
  intro resolved
  have none : leaf.expression? keys = none := Node.expression?_eq_none_iff.mpr resolved
  cases holds.symm.trans none

theorem Node.Inherits.not_resolved {leaf : Node} {keys : List String} (inherits : leaf.Inherits keys) :
    ¬ leaf.isResolved := by
  intro resolved
  have locally := Node.isLocallyResolved_of_isResolved resolved
  rw [inherits.unresolved] at locally
  cases locally

theorem Node.joins_of_at? {stub leaf : Node} {keys : List String}
    (passages : ∀ above ∈ stub.above (keys.map .field), above.isPassage)
    (reached : stub.at? (keys.map .field) = some leaf) (ends : leaf.isResolved ∨ leaf.Inherits keys) :
    stub.Joins keys := by
  refine ⟨passages, fun other held => ?_⟩
  cases reached.symm.trans held
  exact ends

theorem Node.joins_of_missing {stub : Node} {keys : List String}
    (passages : ∀ above ∈ stub.above (keys.map .field), above.isPassage)
    (missing : stub.at? (keys.map .field) = none) : stub.Joins keys := by
  refine ⟨passages, fun other held => ?_⟩
  cases missing.symm.trans held

/-- Down from passages a path finds what stands at its position. -/
theorem Node.find_of_passages {node : Node} {keys : List String}
    (passages : ∀ above ∈ node.above (keys.map .field), above.isPassage) :
    (node.find keys).found? = node.at? (keys.map .field) := by
  induction keys generalizing node with
  | nil => rfl
  | cons key keys induction =>
      rcases Node.isPassage_iff.mp (passages node List.mem_cons_self) with
        ⟨_, resolved, closed, noList⟩
      rcases node with ⟨value, annotations⟩
      cases value with
      | map fields =>
          have absent : fields.lookup markerKey = none := Option.isNone_iff_eq_none.mp closed
          have below : (Node.mk (.map fields) annotations).below? (.field key) = fields.lookup key :=
            Node.below?_field key
          cases held : fields.lookup key with
          | none =>
              rw [held] at below
              rw [List.map_cons, Node.at?, below, Node.find, Node.child, resolved]
              simp only [Node.value_mk, held, absent]
              rfl
          | some child =>
              rw [held] at below
              rw [List.map_cons, Node.above_cons below, List.forall_mem_cons] at passages
              rw [List.map_cons, Node.at?, below, Option.bind_some, Node.find, Node.child, resolved]
              simp only [Node.value_mk, held]
              exact induction passages.2
      | list entries => exact absurd rfl noList
      | _ =>
          rw [Node.find, Node.child, resolved]
          rfl

/-- What the first stub has at a position that has anything there. -/
def firstHeld (keys : List String) (stubs : List Node) : Option Node :=
  stubs.findSome? fun stub => stub.at? (keys.map .field)

theorem Binding.findInStubs?_of_passages {binding : Binding} {keys : List String}
    (joins : ∀ stub ∈ binding.stubs, stub.Joins keys) :
    binding.findInStubs? keys = firstHeld keys binding.stubs := by
  unfold findInStubs? firstHeld
  generalize binding.stubs = stubs at joins
  induction stubs with
  | nil => rfl
  | cons stub stubs induction =>
      rw [List.forall_mem_cons] at joins
      rw [List.findSome?_cons, List.findSome?_cons, Node.find_of_passages joins.1.passages,
        induction joins.2]

namespace Pass

variable {evaluator : Evaluator} {depth : Nat} {binding : Binding} {node node' : Node}
  {keys : List String}

/-- A map that is a passage stays one, and its fields are visited under their keys. -/
theorem visit_passage {fields : List (String × Node)} {annotations : Annotations}
    (passage : (Node.mk (.map fields) annotations).isPassage)
    (ends : visit evaluator binding .expressions (.mk (.map fields) annotations) = .ok node') :
    ∃ fields', node' = .mk (.map fields') annotations ∧ node'.isPassage ∧
      visitFields evaluator ((binding.withSource annotations.source).withScope fields)
        .expressions .ordinary fields = .ok fields' := by
  rcases Node.isPassage_iff.mp passage with ⟨own, _, closed, _⟩
  have absent : fields.lookup markerKey = none := Option.isNone_iff_eq_none.mp closed
  rcases Node.isOwn_iff.mp own with ⟨direct, whole⟩
  rw [Node.annotations_mk] at direct whole
  rcases visit_map_ends (markerResolved_of_absent absent) ends with ⟨fields', rfl, visited⟩
  rw [inside, direct, whole, Override.entries_same] at visited
  exact ⟨fields', rfl, Node.isPassage_iff.mpr ⟨own, rfl,
    Option.isNone_iff_eq_none.mpr (visitFields_fresh visited absent), Kind.noConfusion⟩, visited⟩

/-- Passages stay passages, and what is at their end is visited where it is. -/
theorem visit_passages (passages : ∀ above ∈ node.above (keys.map .field), above.isPassage)
    (ends : visit evaluator binding .expressions node = .ok node') :
    (∀ above ∈ node'.above (keys.map .field), above.isPassage) ∧
      ((node.at? (keys.map .field) = none ∧ node'.at? (keys.map .field) = none) ∨
        ∃ site leaf leaf', node.at? (keys.map .field) = some leaf ∧
          node'.at? (keys.map .field) = some leaf' ∧ site.path = binding.path ++ keys ∧
          site.stubPath = binding.stubPath ++ keys ∧ site.stubs = binding.stubs ∧
          visit evaluator site .expressions leaf = .ok leaf') := by
  induction keys generalizing node node' binding with
  | nil =>
      refine ⟨(fun _ member => nomatch member), .inr ⟨binding, node, node', rfl, rfl, ?_, ?_, rfl, ends⟩⟩
      · exact (List.append_nil _).symm
      · exact (List.append_nil _).symm
  | cons key keys induction =>
      have here := passages node List.mem_cons_self
      by_cases isMap : node.kind = .map
      · rcases Node.eq_map isMap with ⟨fields, annotations, rfl⟩
        rcases visit_passage here ends with ⟨fields', rfl, still, visited⟩
        have below : (Node.mk (.map fields) annotations).below? (.field key) = fields.lookup key :=
          Node.below?_field key
        have below' : (Node.mk (.map fields') annotations).below? (.field key) =
            fields'.lookup key := Node.below?_field key
        rcases visitFields_lookup (.inl rfl) visited with
          ⟨none, none'⟩ | ⟨child, child', held, held', visited⟩
        · rw [none] at below
          rw [none'] at below'
          rw [List.map_cons, Node.above, Node.at?, Node.at?, below, below']
          exact ⟨List.forall_mem_singleton.mpr still, .inl ⟨rfl, rfl⟩⟩
        · rw [held] at below
          rw [held'] at below'
          rw [List.map_cons, Node.above_cons below, List.forall_mem_cons] at passages
          rw [List.map_cons, Node.above_cons below', List.forall_mem_cons, Node.at?, Node.at?, below,
            below', Option.bind_some, Option.bind_some]
          rcases induction passages.2 visited with ⟨inner, absent | found⟩
          · exact ⟨⟨still, inner⟩, .inl absent⟩
          · rcases found with ⟨site, leaf, leaf', reached, reached', path, stubPath, stubs, visited⟩
            refine ⟨⟨still, inner⟩, .inr ⟨site, leaf, leaf', reached, reached', ?_, ?_, stubs, visited⟩⟩
            · exact path.trans (List.append_assoc _ [key] keys)
            · exact stubPath.trans (List.append_assoc _ [key] keys)
      · rcases Node.isPassage_iff.mp here with ⟨_, resolved, _, noList⟩
        rcases visit_cases Override.expressions_ne_all resolved ends with rfl | ⟨kind | kind, _⟩
        · have below : node'.below? (.field key) = none := by
            rcases node' with ⟨value, annotations⟩
            cases value <;> first | rfl | exact absurd rfl isMap
          rw [List.map_cons, Node.above, Node.at?, below]
          exact ⟨List.forall_mem_singleton.mpr here, .inl ⟨rfl, rfl⟩⟩
        · exact absurd kind isMap
        · exact absurd kind noList

end Pass

namespace Pass

variable {site : Binding} {leaf leaf' : Node}

theorem evaluateNode_inherits (path : site.path = keys) (stubPath : site.stubPath = keys)
    (waits : ∀ found, site.findInStubs? keys = some found → found.Inherits keys)
    (inherits : leaf.Inherits keys)
    (ends : evaluateNode (Expression.evaluate (depth + 1)) site leaf = .ok leaf') :
    leaf'.Inherits keys := by
  rcases inherits.merges with ⟨at', holds⟩
  rw [← path] at holds
  rcases evaluateNode_of_expression holds ends with ⟨outcome, evaluated, rfl⟩
  have evaluated : Except.ok (site.mergeOutcome at' false false) = .ok outcome := evaluated
  cases evaluated
  have direct := inherits.direct
  cases held : site.findInStubs? keys with
  | none =>
      rw [← stubPath] at held
      rw [Binding.mergeOutcome_missing held]
      exact ⟨⟨at', rfl⟩, direct, inherits.plain⟩
  | some found =>
      have merges := (waits found held).merges
      rw [← stubPath] at held
      rw [Binding.mergeOutcome_found held]
      refine ⟨merges, ?_, rfl⟩
      change ((none <|> leaf.redirect : Option (List String)) <|> none) = none
      rw [direct]
      rfl

/-- Where the stubs have nothing else than merges, a merge stays one. -/
theorem visit_inherits (path : site.path = keys) (stubPath : site.stubPath = keys)
    (waits : ∀ found, site.findInStubs? keys = some found → found.Inherits keys)
    (inherits : leaf.Inherits keys)
    (ends : visit (Expression.evaluate (depth + 1)) site .expressions leaf = .ok leaf') :
    leaf'.Inherits keys := by
  rcases inherits.merges with ⟨at', holds⟩
  rw [← path] at holds
  rcases Node.leaf_of_expression holds with ⟨noMap, noList⟩
  have holds : leaf.expression? (site.withSource leaf.source).path =
      some (.ok (.merge at' false false)) := holds
  rw [visit_leaf noMap noList, Pass.leaf, stubFor?_of_expression holds inherits.direct] at ends
  have path : (site.withSource leaf.source).path = keys := path
  have stubPath : (site.withSource leaf.source).stubPath = keys := stubPath
  refine evaluateNode_inherits path stubPath waits ?_ ends
  rw [stubPath]
  split
  · cases held : (site.withSource leaf.source).findInStubs? keys with
    | none => exact inherits
    | some found => exact waits found held
  · exact inherits

theorem visit_inherited {found : Node} (path : site.path = keys) (stubPath : site.stubPath = keys)
    (held : site.findInStubs? keys = some found) (resolved : found.isResolved)
    (inherits : leaf.Inherits keys)
    (ends : visit evaluator site .expressions leaf = .ok leaf') : leaf' = found := by
  rcases inherits.merges with ⟨at', holds⟩
  have weak : isPreferredLeaf (leaf.expression? site.path) = false := by
    rw [path, holds]
    rfl
  rw [← stubPath] at held
  have overridden : visit evaluator site .expressions leaf = .ok found :=
    visit_stub inherits.unresolved inherits.direct inherits.plain weak held
      (Node.isLocallyResolved_of_isResolved resolved)
  cases overridden.symm.trans ends
  rfl

end Pass

namespace Resolution

variable {answers : Answers} {limit passes : Nat} {given stubs : List Node}
  {document after template leaf : Node} {keys : List String}

/-- What becomes of what is at the position, given what the first stub has there. -/
inductive Fills (keys : List String) (held : Option Node) : Option Node → Option Node → Prop
  | absent : Fills keys held none none
  | resolved {leaf : Node} : leaf.isResolved → Fills keys held (some leaf) (some leaf)
  | inherited {leaf found : Node} : leaf.Inherits keys → held = some found → found.isResolved →
      Fills keys held (some leaf) (some found)
  | waiting {leaf leaf' : Node} : leaf.Inherits keys →
      (∀ found, held = some found → found.Inherits keys) → leaf'.Inherits keys →
        Fills keys held (some leaf) (some leaf')

theorem Fills.trans {held first second third : Option Node} (fills : Fills keys held first second)
    (next : Fills keys held second third) : Fills keys held first third := by
  cases fills with
  | absent => exact next
  | resolved resolved => exact next
  | inherited inherits equal resolved =>
      cases next with
      | resolved _ => exact .inherited inherits equal resolved
      | inherited again _ _ | waiting again _ _ => exact absurd resolved again.not_resolved
  | waiting inherits waits still =>
      cases next with
      | resolved resolved => exact absurd resolved still.not_resolved
      | inherited _ equal resolved => exact absurd resolved (waits _ equal).not_resolved
      | waiting _ _ last => exact .waiting inherits waits last

theorem Fills.joins {held first second : Option Node} (fills : Fills keys held first second) :
    ∀ leaf, second = some leaf → leaf.isResolved ∨ leaf.Inherits keys := by
  rintro leaf rfl
  cases fills with
  | resolved resolved | inherited _ _ resolved => exact .inl resolved
  | waiting _ _ still => exact .inr still

theorem firstHeld_cases (joins : ∀ stub ∈ stubs, stub.Joins keys) :
    (∃ found, firstHeld keys stubs = some found ∧ found.isResolved) ∨
      ∀ found, firstHeld keys stubs = some found → found.Inherits keys := by
  cases held : firstHeld keys stubs with
  | none => exact .inr fun found equal => nomatch equal
  | some found =>
      rcases List.exists_of_findSome?_eq_some held with ⟨stub, member, there⟩
      rcases (joins stub member).ends found there with resolved | inherits
      · exact .inl ⟨found, rfl, resolved⟩
      · refine .inr fun other equal => ?_
        cases equal
        exact inherits

/-- A pass over a document that joins fills in what the stubs have. -/
theorem run_fills (stubsJoin : ∀ stub ∈ stubs, stub.Joins keys) (joins : document.Joins keys)
    (pass : Pass.run answers stubs document = .ok after) :
    after.Joins keys ∧ Fills keys (firstHeld keys stubs) (document.at? (keys.map .field))
      (after.at? (keys.map .field)) := by
  rcases Pass.visit_passages joins.passages pass with ⟨passages, ends⟩
  have fills : Fills keys (firstHeld keys stubs) (document.at? (keys.map .field))
      (after.at? (keys.map .field)) := by
    rcases ends with
      ⟨absent, absent'⟩ | ⟨site, leaf, leaf', reached, reached', path, stubPath, same, visited⟩
    · rw [absent, absent']
      exact .absent
    · rw [reached, reached']
      have found : site.findInStubs? keys = firstHeld keys stubs := by
        rw [Binding.findInStubs?_of_passages (same ▸ stubsJoin), same]
      rcases joins.ends leaf reached with resolved | inherits
      · rw [Pass.visit_of_isResolved leaf Override.expressions_ne_all resolved] at visited
        cases visited
        exact .resolved resolved
      · rcases firstHeld_cases stubsJoin with ⟨held, equal, resolved⟩ | waits
        · rw [← found] at equal
          rw [Pass.visit_inherited path stubPath equal resolved inherits visited]
          exact .inherited inherits (found ▸ equal) resolved
        · exact .waiting inherits waits
            (Pass.visit_inherits path stubPath (found ▸ waits) inherits visited)
  exact ⟨⟨passages, fills.joins⟩, fills⟩

/-- So does a whole run. -/
theorem treeAfter_fills (stubsJoin : ∀ stub ∈ stubs, stub.Joins keys) (joins : document.Joins keys)
    (run : treeAfter answers stubs (passes + 1) document = .ok after) :
    after.Joins keys ∧ Fills keys (firstHeld keys stubs) (document.at? (keys.map .field))
      (after.at? (keys.map .field)) := by
  induction passes generalizing after with
  | zero =>
      rcases treeAfter_pred run with ⟨before, first, pass⟩
      cases first
      exact run_fills stubsJoin joins pass
  | succ passes induction =>
      rcases treeAfter_pred run with ⟨before, earlier, pass⟩
      rcases induction earlier with ⟨joined, fills⟩
      rcases run_fills stubsJoin joined pass with ⟨joined', last⟩
      exact ⟨joined', fills.trans last⟩

theorem partly_fills {resolution : Resolution} (stubsJoin : ∀ stub ∈ stubs, stub.Joins keys)
    (joins : template.Joins keys) (result : partly answers limit stubs template = .ok (.ok resolution)) :
    resolution.document.Joins keys ∧ Fills keys (firstHeld keys stubs)
      (template.at? (keys.map .field)) (resolution.document.at? (keys.map .field)) := by
  rcases settled_of_partly result with ⟨last, settled⟩
  have final := settled.final
  rw [← Nat.sub_add_cancel settled.passes] at final
  exact treeAfter_fills stubsJoin joins final

/-- The first resolved node that the stubs have at a position. -/
def firstResolved (keys : List String) (stubs : List Node) : Option Node :=
  stubs.findSome? fun stub => (stub.at? (keys.map .field)).filter Node.isResolved

/-- The first resolved node of the stubs is the first node of the flowed ones; if there is
none, only merges are left. -/
inductive Draws (keys : List String) : Option Node → Option Node → Prop
  | resolved {found : Node} : found.isResolved → Draws keys (some found) (some found)
  | waiting {held : Option Node} : (∀ found, held = some found → found.Inherits keys) →
      Draws keys none held

theorem Draws.fills {resolved held before after : Option Node} (draws : Draws keys resolved held)
    (fills : Fills keys held before after) :
    Draws keys ((before.filter Node.isResolved).or resolved) (after.or held) := by
  cases fills with
  | absent => exact draws
  | resolved whole =>
      rw [Option.filter_some, if_pos whole]
      exact .resolved whole
  | inherited inherits equal whole =>
      subst equal
      rw [Option.filter_some, if_neg inherits.not_resolved]
      cases draws with
      | resolved _ => exact .resolved whole
      | waiting waits => exact absurd whole (waits _ rfl).not_resolved
  | waiting inherits waits still =>
      rw [Option.filter_some, if_neg inherits.not_resolved]
      cases draws with
      | resolved whole => exact absurd whole (waits _ rfl).not_resolved
      | waiting _ =>
          refine .waiting fun found equal => ?_
          cases equal
          exact still

theorem firstHeld_cons (keys : List String) (stub : Node) (stubs : List Node) :
    firstHeld keys (stub :: stubs) = (stub.at? (keys.map .field)).or (firstHeld keys stubs) := by
  rw [firstHeld, List.findSome?_cons]
  cases stub.at? (keys.map .field) <;> rfl

theorem firstResolved_cons (keys : List String) (stub : Node) (stubs : List Node) :
    firstResolved keys (stub :: stubs) =
      ((stub.at? (keys.map .field)).filter Node.isResolved).or (firstResolved keys stubs) := by
  rw [firstResolved, List.findSome?_cons]
  cases (stub.at? (keys.map .field)).filter Node.isResolved <;> rfl

theorem stubs_pred {stub : Node} {flowed : List Node}
    (result : Resolution.stubs answers limit (stub :: given) = .ok (.ok flowed)) :
    ∃ later resolution, Resolution.stubs answers limit given = .ok (.ok later) ∧
      partly answers limit later stub = .ok (.ok resolution) ∧
      flowed = resolution.document :: later := by
  rw [Resolution.stubs] at result
  rcases ok_of_bind result with ⟨fault | later, before, result⟩
  · cases result
  · rcases ok_of_bind result with ⟨fault | resolution, last, result⟩
    · cases result
    · cases result
      exact ⟨later, resolution, before, last, rfl⟩

/-- The stubs one after the other, the last one first. -/
theorem stubs_draw {flowed : List Node} (joins : ∀ stub ∈ given, stub.Joins keys)
    (result : Resolution.stubs answers limit given = .ok (.ok flowed)) :
    (∀ stub ∈ flowed, stub.Joins keys) ∧
      Draws keys (firstResolved keys given) (firstHeld keys flowed) := by
  induction given generalizing flowed with
  | nil =>
      cases result
      exact ⟨List.forall_mem_nil _, .waiting fun _ none => nomatch none⟩
  | cons stub given induction =>
      rw [List.forall_mem_cons] at joins
      rcases stubs_pred result with ⟨later, resolution, before, last, rfl⟩
      rcases induction joins.2 before with ⟨laterJoin, draws⟩
      rcases partly_fills laterJoin joins.1 last with ⟨joined, fills⟩
      rw [firstResolved_cons, firstHeld_cons]
      exact ⟨List.forall_mem_cons.mpr ⟨joined, laterJoin⟩, draws.fills fills⟩

theorem cascade_pred {resolution : Resolution}
    (result : cascade answers limit true given template = .ok (.ok resolution)) :
    ∃ flowed, Resolution.stubs answers limit given = .ok (.ok flowed) ∧
      partly answers limit flowed template = .ok (.ok resolution) := by
  rw [cascade] at result
  rcases ok_of_bind result with ⟨fault | flowed, before, result⟩
  · cases result
  · rcases ok_of_bind result with ⟨fault | resolution, last, result⟩
    · cases result
    · cases result
      exact ⟨flowed, before, last⟩

end Resolution

theorem mem_fieldPlaces {fields : List (String × Node)} {key : String} {field : Node}
    (place : Place) (member : (key, field) ∈ fields) :
    ∀ found ∈ field.placesFrom (place.field key), found ∈ fieldPlaces place fields := by
  intro found inside
  induction fields with
  | nil => cases member
  | cons first fields induction =>
      rcases first with ⟨other, node⟩
      rw [fieldPlaces, List.mem_append]
      cases member with
      | head => exact .inl inside
      | tail _ member => exact .inr (induction member)

/-- What is at a position is listed with the keys that lead there. -/
theorem Node.mem_placesFrom {node leaf : Node} {keys : List String} (place : Place)
    (reached : node.at? (keys.map .field) = some leaf) :
    (⟨place.context ++ keys, place.logical ++ keys⟩, leaf) ∈ node.placesFrom place := by
  induction keys generalizing node place with
  | nil =>
      cases reached
      rcases leaf with ⟨value, annotations⟩
      simp [Node.placesFrom]
  | cons key keys induction =>
      rcases Node.at?_cons reached with ⟨child, found, rest⟩
      rcases Node.below?_cases found with ⟨_, fields, annotations, same, rfl, held⟩ | ⟨_, _, _, same, _⟩
      · cases same
        have inner := mem_fieldPlaces place (member_of_lookup held) _
          (induction (place.field key) rest)
        simp only [Place.field, List.append_assoc, List.singleton_append] at inner
        exact List.mem_cons_of_mem _ inner
      · cases same

namespace Resolution

variable {answers : Answers} {limit : Nat} {given : List Node} {template leaf : Node}
  {keys : List String}

end Resolution

end Stencil
