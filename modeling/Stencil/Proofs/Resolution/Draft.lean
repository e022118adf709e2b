import Stencil.Proofs.Resolution.Equations
import Stencil.Proofs.Resolution.Within

namespace Stencil

/-! Between an elementary template and its result. A draft is the template with some of its
expressions already decided, rightly or not. A run from a draft ends in the result of the
template exactly when the draft holds nothing that the result does not hold. -/

/-- The nodes of a simple tree are simple. -/
theorem Node.isSimple_of_at? {node leaf : Node} {route : List Step} (simple : node.isSimple)
    (found : node.at? route = some leaf) : leaf.isSimple := by
  induction route generalizing node with
  | nil =>
      cases found
      exact simple
  | cons step route induction =>
      rcases at?_cons found with ⟨child, first, rest⟩
      refine induction ?_ rest
      rcases below?_cases first with
        ⟨key, fields, annotations, rfl, rfl, held⟩ | ⟨index, entries, annotations, rfl, rfl, held⟩
      · rcases simple_cases simple with plain | ⟨_, simple⟩
        · exact isSimple_of_isPlain (lookup_plain plain held).2
        · exact (lookup_simple simple held).2
      · have member := List.mem_of_getElem? held
        rcases simple_cases simple with plain | ⟨_, simple⟩
        · exact isSimple_of_isPlain (member_plain plain member)
        · exact member_simple simple member

/-! ## What a pass decides -/

namespace Binding

variable {site later : Binding} {mode : Override} {preferred : Bool} {expression : Expression}
  {value value' : Node}

/-- The contents of the stub that overrides an expression at the place. -/
def override? (site : Binding) (mode : Override) (preferred : Bool) (expression : Expression) :
    Option Node :=
  if mode.allows true && !preferred && !expression.isPreferred then
    (site.findInStubs? site.stubPath).map (Node.masked .contents)
  else none

/-- A pass puts these contents in the place of the expression. -/
inductive Decides (site : Binding) (mode : Override) (preferred : Bool) (expression : Expression) :
    Node → Prop where
  | overridden {value : Node} (found : site.override? mode preferred expression = some value) :
      Decides site mode preferred expression value
  | evaluated {value : Node} (alone : site.override? mode preferred expression = none)
      (gives : ∀ source, ∃ found report,
        Expression.evaluate Expression.callDepth (site.withSource source) expression =
            .ok (.value found report) ∧
          found.masked .contents = value) :
      Decides site mode preferred expression value

namespace Decides

theorem unique (first : site.Decides mode preferred expression value)
    (second : site.Decides mode preferred expression value') : value = value' := by
  cases first with
  | overridden found =>
      cases second with
      | overridden found' => exact Option.some.inj (found.symm.trans found')
      | evaluated alone' _ => exact absurd (found.symm.trans alone') (Option.some_ne_none _)
  | evaluated alone gives =>
      cases second with
      | overridden found' => exact absurd (found'.symm.trans alone) (Option.some_ne_none _)
      | evaluated _ gives' =>
          rcases gives none with ⟨found, report, ends, rfl⟩
          rcases gives' none with ⟨found', report', ends', rfl⟩
          cases ends.symm.trans ends'
          rfl

/-- What is decided is decided in the same way further on. -/
theorem refined (decides : site.Decides mode preferred expression value)
    (settled : site.listsSettled) (refined : site.RefinedBy .contents later) :
    later.Decides mode preferred expression value := by
  have same : later.override? mode preferred expression =
      site.override? mode preferred expression := by
    unfold override?
    rw [← refined.stubPath, (refined.precedes settled).findInStubs?]
  cases decides with
  | overridden found => exact .overridden (same.trans found)
  | evaluated alone gives =>
      refine .evaluated (same.trans alone) fun source => ?_
      rcases gives none with ⟨found, report, ends, rfl⟩
      exact refined.value settled ends source

end Decides

end Binding

theorem Binding.RefinedBy.same (site : Binding) : site.RefinedBy .contents site := by
  refine ⟨⟨rfl, rfl, rfl, rfl, rfl, rfl⟩, ?_⟩
  rw [List.forall₂_same]
  exact fun fields _ => fieldsRefined.refl _

/-- A pass decides an expression, or leaves it in its place. -/
theorem Pass.visit_decides {site : Binding} {mode : Override} {preferred : Bool}
    {expression : Expression} {node node' : Node} (place : site.IsSimple)
    (settled : site.listsSettled) (held : node.Holds expression preferred)
    (ends : visit (Expression.evaluate Expression.callDepth) site mode node = .ok node') :
    node'.isPlain ∧ site.Decides mode preferred expression (node'.masked .contents) ∨
      node'.Holds expression preferred ∧ node'.value = .expression expression ∧
        ∀ value, ¬ site.Decides mode preferred expression value := by
  have holds := held.holds site.path
  have stubs : stubFor? node (site.withSource node.source) mode =
      if mode.allows true && !node.annotations.preferred && !expression.isPreferred then
        site.findInStubs? site.stubPath
      else none := stubFor?_of_expression holds held.direct
  have override : site.override? mode preferred expression =
      (stubFor? node (site.withSource node.source) mode).map (Node.masked .contents) := by
    rw [stubs, held.preferred]
    unfold Binding.override?
    split <;> rfl
  have becomes := visit_holds (Expression.evaluate_plain _) place held ends
  cases stub : stubFor? node (site.withSource node.source) mode with
  | some found =>
      rw [stub] at override
      have plain := place.findInStubs?
        (Option.ite_none_right_eq_some.mp (stubs.symm.trans stub)).2
      cases visit_overridden holds stub
        (Node.isLocallyResolved_of_isResolved (Node.isResolved_of_isPlain plain)) ends
      exact .inl ⟨plain, .overridden override⟩
  | none =>
      rw [stub] at override
      rcases visit_outcome holds stub ends with ⟨outcome, evaluated, rfl⟩
      cases outcome with
      | value result report =>
          rcases becomes with plain | ⟨_, same⟩
          · refine .inl ⟨plain, .evaluated override fun source => ?_⟩
            rcases (Binding.RefinedBy.same site).value settled evaluated source with
              ⟨found, report', evaluated', same⟩
            exact ⟨found, report', evaluated', same.trans (Node.masked_contents_congr rfl)⟩
          · rcases result with ⟨value, annotations⟩
            have plain := Expression.evaluate_plain _ (place.withSource _).findsPlain
              held.elementary evaluated
            cases same
            cases plain
      | deferred report | failed report =>
          refine .inr ⟨⟨fun _ => rfl, held.elementary, held.direct, held.preferred⟩, rfl, ?_⟩
          intro value decides
          cases decides with
          | overridden found => exact Option.some_ne_none _ (found.symm.trans override)
          | evaluated _ gives =>
              rcases gives node.source with ⟨found, _, evaluated', _⟩
              cases evaluated.symm.trans evaluated'

namespace Resolution

variable {answers : Answers} {stubs : List Node} {document later : Node} {route : List Step}
  {mode : Override} {preferred : Bool} {expression : Expression} {value value' : Node}

/-- A pass over the document puts these contents in the place of an expression at the position. -/
def DecidesAt (answers : Answers) (stubs : List Node) (document : Node) (route : List Step)
    (mode : Override) (preferred : Bool) (expression : Expression) (value : Node) : Prop :=
  ∃ site leaf, document.reach (root answers stubs) route = some (site, leaf) ∧
    site.Decides mode preferred expression value

namespace DecidesAt

theorem unique (first : DecidesAt answers stubs document route mode preferred expression value)
    (second : DecidesAt answers stubs document route mode preferred expression value') :
    value = value' := by
  rcases first with ⟨site, leaf, reached, decides⟩
  rcases second with ⟨site', leaf', reached', decides'⟩
  cases reached.symm.trans reached'
  exact decides.unique decides'

theorem refined (decides : DecidesAt answers stubs document route mode preferred expression value)
    (elementary : document.isElementary []) (within : document.Within later) :
    DecidesAt answers stubs later route mode preferred expression value := by
  rcases decides with ⟨site, leaf, reached, decides⟩
  have settled := (Node.isElementary_iff.mp elementary).2
  rcases Node.RefinedBy.sites root_refined settled within reached with
    ⟨site', leaf', reached', refined⟩
  exact ⟨site', leaf', reached',
    decides.refined (Binding.listsSettled_of_reach rfl settled reached) refined⟩

end DecidesAt

/-- What a pass makes of the expression that a template has at a position. -/
inductive LeafFate (answers : Answers) (stubs : List Node) (document later : Node)
    (route : List Step) (mode : Override) (preferred : Bool) (expression : Expression) : Prop where
  | kept {held held' : Node} (before : document.at? route = some held)
      (after : later.at? route = some held') (resolved : held.isResolved)
      (same : held'.masked .contents = held.masked .contents)
  | decided {held held' : Node} (before : document.at? route = some held)
      (after : later.at? route = some held') (waiting : held.Holds expression preferred)
      (resolved : held'.isResolved)
      (decides : DecidesAt answers stubs document route mode preferred expression
        (held'.masked .contents))
  | waits {held held' : Node} (before : document.at? route = some held)
      (after : later.at? route = some held') (waiting : held.Holds expression preferred)
      (still : held'.Holds expression preferred) (value : held'.value = .expression expression)
      (modes : later.modeAlong .expressions route = mode)
      (undecided : ∀ value, ¬ DecidesAt answers stubs document route mode preferred expression value)

theorem run_decides (plain : ∀ stub ∈ stubs, stub.isPlain) (elementary : document.isElementary [])
    (pass : Pass.run answers stubs document = .ok later) {held : Node}
    (found : document.at? route = some held) (waiting : held.Holds expression preferred) :
    LeafFate answers stubs document later route (document.modeAlong .expressions route) preferred
      expression := by
  rw [Node.isElementary_iff] at elementary
  rcases Node.reach_of_at? found (root answers stubs) with ⟨site, reached⟩
  rcases Pass.visit_reach (root_simple plain) Override.expressions_ne_all elementary.1 pass reached
      waiting.not_resolved
    with ⟨place, _, modes, _, held', visited, after⟩
  have settled := Binding.listsSettled_of_reach rfl elementary.2 reached
  rcases Pass.visit_decides place settled waiting visited with
    ⟨whole, decides⟩ | ⟨still, value, undecided⟩
  · exact .decided found after waiting (Node.isResolved_of_isPlain whole)
      ⟨site, held, reached, decides⟩
  · refine .waits found after waiting still value modes ?_
    rintro value ⟨site', leaf, reached', decides⟩
    cases reached.symm.trans reached'
    exact undecided value decides

/-! ## Drafts -/

/-- An elementary document with all that is resolved in the template. Where the template has an
expression, the document still has it in the same way, or has something resolved. -/
structure IsDraft (template document : Node) : Prop where
  elementary : document.isElementary []
  within : template.Within document
  leaves {route : List Step} {leaf : Node} {expression : Expression} {preferred : Bool}
    (found : template.at? route = some leaf) (holds : leaf.Holds expression preferred) :
    ∃ held, document.at? route = some held ∧
      (held.isResolved ∨ held.Holds expression preferred ∧
        document.modeAlong .expressions route = template.modeAlong .expressions route)

variable {template leaf : Node}

namespace IsDraft

theorem refl (elementary : template.isElementary []) : IsDraft template template :=
  ⟨elementary, .of_same rfl, fun found holds => ⟨_, found, .inr ⟨holds, rfl⟩⟩⟩

theorem fate (plain : ∀ stub ∈ stubs, stub.isPlain) (draft : IsDraft template document)
    (pass : Pass.run answers stubs document = .ok later) (found : template.at? route = some leaf)
    (holds : leaf.Holds expression preferred) :
    LeafFate answers stubs document later route (template.modeAlong .expressions route) preferred
      expression := by
  rcases draft.leaves found holds with ⟨held, before, resolved | ⟨waiting, modes⟩⟩
  · have within : document.Within later :=
      .of_refined (run_elementary plain draft.elementary pass).2
    rcases within.at? before with ⟨held', after, leaves⟩
    exact .kept before after resolved (leaves.same resolved)
  · rw [← modes]
    exact run_decides plain draft.elementary pass before waiting

theorem run (plain : ∀ stub ∈ stubs, stub.isPlain) (draft : IsDraft template document)
    (pass : Pass.run answers stubs document = .ok later) : IsDraft template later := by
  have step := run_elementary plain draft.elementary pass
  refine ⟨step.1, draft.within.trans (.of_refined step.2), fun found holds => ?_⟩
  cases draft.fate plain pass found holds with
  | kept before after resolved same =>
      refine ⟨_, after, .inl ?_⟩
      rwa [← Node.isResolved_masked .contents, same, Node.isResolved_masked]
  | decided before after waiting resolved decides => exact ⟨_, after, .inl resolved⟩
  | waits before after waiting still value modes undecided =>
      exact ⟨_, after, .inr ⟨still, modes⟩⟩

/-- A pass that leaves an expression writes it as such. -/
theorem leaf_value (plain : ∀ stub ∈ stubs, stub.isPlain) (draft : IsDraft template document)
    (pass : Pass.run answers stubs document = .ok later) (found : template.at? route = some leaf)
    (holds : leaf.Holds expression preferred) {held : Node} (after : later.at? route = some held)
    (waiting : held.Holds expression preferred) : held.value = .expression expression := by
  have pending : held.isResolved = false := waiting.not_resolved
  cases draft.fate plain pass found holds with
  | kept _ after' resolved same =>
      cases after.symm.trans after'
      rw [← Node.isResolved_masked .contents, same, Node.isResolved_masked, resolved] at pending
      cases pending
  | decided _ after' _ resolved _ =>
      cases after.symm.trans after'
      rw [resolved] at pending
      cases pending
  | waits _ after' _ _ value _ _ =>
      cases after.symm.trans after'
      exact value

theorem treeAfter (plain : ∀ stub ∈ stubs, stub.isPlain) (draft : IsDraft template document)
    {passes : Nat} (reached : Resolution.treeAfter answers stubs passes document = .ok later) :
    IsDraft template later :=
  treeAfter_invariant draft (fun _ _ before pass => before.run plain pass) reached

/-- Two drafts that have all of the template are related as a whole when they are related where
the template has an expression. -/
theorem lift {related : Node → Node → Prop} (congruent : Congruent related)
    (distinct : template.keysDistinct) (elementary : template.isElementary [])
    (draft : IsDraft template document) (draft' : IsDraft template later)
    (meet : ∀ (route : List Step) (leaf : Node) (expression : Expression) (preferred : Bool),
      template.at? route = some leaf → leaf.Holds expression preferred →
      ∃ one other, document.at? route = some one ∧ later.at? route = some other ∧
        related one other) : related document later := by
  refine congruent.lift template distinct draft.within draft'.within ?_
  intro route leaf found unresolved
  have simple := Node.isSimple_of_at? (Node.isElementary_iff.mp elementary).1 found
  rcases Node.holds_of_simple simple unresolved with ⟨expression, holds⟩
  exact meet route leaf expression _ found holds

/-- A last pass that changes nothing decides nothing. -/
theorem final (distinct : template.keysDistinct) (elementary : template.isElementary [])
    (draft : IsDraft template document) (draft' : IsDraft template later)
    (within : document.Within later) (same : later.same document) : later.Within document := by
  refine draft'.lift congruent_within distinct elementary draft ?_
  intro route leaf expression preferred found holds
  rcases draft.leaves found holds with ⟨held, before, status⟩
  rcases draft'.leaves found holds with ⟨held', after, _⟩
  refine ⟨held', held, after, before, ?_⟩
  rcases within.at? before with ⟨_, after', leaves⟩
  cases after.symm.trans after'
  rcases status with resolved | ⟨waiting, _⟩
  · exact .of_same (leaves.same resolved)
  · apply Node.Within.of_unresolved
    rw [← Bool.not_eq_true]
    intro resolved
    rcases Node.same_at? same after with ⟨_, before', equal⟩
    cases before.symm.trans before'
    have pending := waiting.unresolved
    rw [Node.isLocallyResolved_of_same equal resolved] at pending
    cases pending

end IsDraft

/-! ## Runs from a draft -/

/-- The run from the first document comes to its end. -/
structure Ends (answers : Answers) (stubs : List Node) (first last result : Node) : Prop where
  reached : ∃ passes, treeAfter answers stubs passes first = .ok last
  pass : Pass.run answers stubs last = .ok result
  same : result.same last

section
variable {first last result : Node} (plain : ∀ stub ∈ stubs, stub.isPlain)
  (distinct : template.keysDistinct) (elementary : template.isElementary [])

/-- What the run from a draft goes through. -/
structure Through (template first last result : Node) : Prop where
  draft : IsDraft template last
  draft' : IsDraft template result
  start : first.Within last
  forth : last.Within result
  back : result.Within last

include plain distinct elementary

theorem Ends.through (ends : Ends answers stubs first last result)
    (draft : IsDraft template first) : Through template first last result := by
  rcases ends.reached with ⟨passes, reached⟩
  have draftLast := draft.treeAfter plain reached
  have draftResult := draftLast.run plain ends.pass
  have forth : last.Within result :=
    .of_refined (run_elementary plain draftLast.elementary ends.pass).2
  have start : Resolution.treeAfter answers stubs 0 first = .ok first := rfl
  rw [← Nat.zero_add passes] at reached
  exact ⟨draftLast, draftResult, .of_refined (treeAfter_refined plain draft.elementary start reached),
    forth, draftLast.final distinct elementary draftResult forth ends.same⟩

omit distinct in
/-- What stands resolved in the place of an expression was decided in a pass before. -/
theorem decided_before {passes : Nat}
    (reached : treeAfter answers stubs passes template = .ok document)
    (found : template.at? route = some leaf) (holds : leaf.Holds expression preferred)
    {held : Node} (after : document.at? route = some held) (resolved : held.isResolved) :
    ∃ before, before.isElementary [] ∧ before.Within document ∧
      DecidesAt answers stubs before route (template.modeAlong .expressions route) preferred
        expression (held.masked .contents) := by
  let waits (document : Node) : Prop :=
    ∃ node, document.at? route = some node ∧ node.Holds expression preferred
  have done : ¬ waits document := by
    rintro ⟨node, found', waiting⟩
    cases after.symm.trans found'
    rw [waiting.not_resolved] at resolved
    cases resolved
  obtain ⟨early, before, next, earlier, reachedBefore, ⟨node, still, waiting⟩, pass, stops⟩ :=
    treeAfter_change (show waits template from ⟨leaf, found, holds⟩) reached done
  have draft := (IsDraft.refl elementary).treeAfter plain reachedBefore
  have later : next.Within document :=
    .of_refined (treeAfter_refined plain elementary (treeAfter_succ reachedBefore pass)
      (by rwa [Nat.add_sub_of_le earlier]))
  have step : before.Within next := .of_refined (run_elementary plain draft.elementary pass).2
  cases draft.fate plain pass found holds with
  | kept found' _ resolved _ =>
      cases still.symm.trans found'
      rw [waiting.not_resolved] at resolved
      cases resolved
  | decided _ found' _ whole decides =>
      rcases later.at? found' with ⟨_, after', leaves⟩
      cases after.symm.trans after'
      rw [leaves.same whole]
      exact ⟨before, draft.elementary, step.trans later, decides⟩
  | waits _ found' _ waiting _ _ _ => exact absurd ⟨_, found', waiting⟩ stops

/-- A pass over a draft that holds nothing but what the result holds decides as the result has
it. -/
theorem IsDraft.run_within (ends : Ends answers stubs template last result)
    (draft : IsDraft template document) (within : document.Within result)
    (pass : Pass.run answers stubs document = .ok later) : later.Within result := by
  have through := ends.through plain distinct elementary (.refl elementary)
  refine (draft.run plain pass).lift congruent_within distinct elementary through.draft' ?_
  intro route leaf expression preferred found holds
  rcases through.draft'.leaves found holds with ⟨final, atEnd, _⟩
  cases draft.fate plain pass found holds with
  | kept before after resolved same =>
      refine ⟨_, final, after, atEnd, ?_⟩
      rcases within.at? before with ⟨_, atEnd', leaves⟩
      cases atEnd.symm.trans atEnd'
      exact Node.Within.trans (.of_same same) leaves
  | waits _ after _ still _ _ _ =>
      exact ⟨_, final, after, atEnd, .of_unresolved still.unresolved⟩
  | decided before after waiting resolved decides =>
      refine ⟨_, final, after, atEnd, .of_same ?_⟩
      cases through.draft.fate plain ends.pass found holds with
      | kept before' after' resolved' same' =>
          cases atEnd.symm.trans after'
          rcases ends.reached with ⟨passes, reached⟩
          rcases decided_before plain elementary reached found holds before' resolved' with
            ⟨early, elementary', within', decides'⟩
          rw [same']
          exact (decides.refined draft.elementary within).unique
            (decides'.refined elementary' (within'.trans through.forth))
      | decided before' after' waiting' resolved' decides' =>
          cases atEnd.symm.trans after'
          exact (decides.refined draft.elementary (within.trans through.back)).unique decides'
      | waits before' after' waiting' still value modes undecided =>
          exact absurd (decides.refined draft.elementary (within.trans through.back))
            (undecided _)

/-- So does every pass of a run from such a draft. -/
theorem IsDraft.treeAfter_within (ends : Ends answers stubs template last result)
    (draft : IsDraft template document) (within : document.Within result) {passes : Nat}
    (reached : Resolution.treeAfter answers stubs passes document = .ok later) :
    IsDraft template later ∧ later.Within result := by
  refine treeAfter_invariant (motive := fun node => IsDraft template node ∧ node.Within result)
    ⟨draft, within⟩ ?_ reached
  rintro before after ⟨draft, within⟩ pass
  exact ⟨draft.run plain pass, draft.run_within plain distinct elementary ends within pass⟩

/-- And the run from the draft decides all that the run of the template decides. -/
theorem IsDraft.within_result {last' result' : Node} (ends : Ends answers stubs template last result)
    (draft : IsDraft template document) (within : document.Within result)
    (ends' : Ends answers stubs document last' result') : result.Within result' := by
  have through := ends.through plain distinct elementary (.refl elementary)
  have through' := ends'.through plain distinct elementary draft
  obtain ⟨_, bounded⟩ : IsDraft template last' ∧ last'.Within result := by
    rcases ends'.reached with ⟨passes, reached⟩
    exact draft.treeAfter_within plain distinct elementary ends within reached
  rcases ends.reached with ⟨passes, reached⟩
  refine (treeAfter_invariant (motive := fun node => IsDraft template node ∧ node.Within result ∧
    node.Within result') ?_ ?_ (treeAfter_succ reached ends.pass)).2.2
  · exact ⟨.refl elementary, through.start.trans through.forth,
      draft.within.trans (through'.start.trans through'.forth)⟩
  · rintro before after ⟨draft, below, below'⟩ pass
    have draftAfter := draft.run plain pass
    have belowAfter := draft.run_within plain distinct elementary ends below pass
    refine ⟨draftAfter, belowAfter, ?_⟩
    refine draftAfter.lift congruent_within distinct elementary through'.draft' ?_
    intro route leaf expression preferred found holds
    rcases through'.draft'.leaves found holds with ⟨final, atEnd, _⟩
    cases draft.fate plain pass found holds with
    | kept found' found'' resolved same =>
        refine ⟨_, final, found'', atEnd, ?_⟩
        rcases below'.at? found' with ⟨_, atEnd', leaves⟩
        cases atEnd.symm.trans atEnd'
        exact Node.Within.trans (.of_same same) leaves
    | waits _ found'' _ still _ _ _ =>
        exact ⟨_, final, found'', atEnd, .of_unresolved still.unresolved⟩
    | decided found' found'' waiting resolved decides =>
        refine ⟨_, final, found'', atEnd, .of_same ?_⟩
        have ahead := decides.refined draft.elementary (below'.trans through'.back)
        cases through'.draft.fate plain ends'.pass found holds with
        | kept before' after' resolved' same' =>
            cases atEnd.symm.trans after'
            -- What the other run had decided already is in the result as well.
            rcases bounded.at? before' with ⟨other, there, leaves⟩
            rcases belowAfter.at? found'' with ⟨_, there', leaves'⟩
            cases there.symm.trans there'
            rw [same', ← leaves.same resolved', leaves'.same resolved]
        | decided before' after' waiting' resolved' decides' =>
            cases atEnd.symm.trans after'
            exact ahead.unique decides'
        | waits before' after' waiting' still value modes undecided =>
            exact absurd ahead (undecided _)

/-- The run from a draft ends in the result of the template if and only if all that the draft
holds is in that result. -/
theorem IsDraft.result_iff {last' result' : Node} (ends : Ends answers stubs template last result)
    (draft : IsDraft template document) (ends' : Ends answers stubs document last' result') :
    result'.masked .contents = result.masked .contents ↔ document.Within result := by
  have through := ends.through plain distinct elementary (.refl elementary)
  have through' := ends'.through plain distinct elementary draft
  have after := through'.start.trans through'.forth
  constructor
  · exact fun same => after.trans (.of_same same)
  · intro within
    obtain ⟨_, bounded⟩ : IsDraft template result' ∧ result'.Within result := by
      rcases ends'.reached with ⟨passes, reached⟩
      exact draft.treeAfter_within plain distinct elementary ends within
        (treeAfter_succ reached ends'.pass)
    have covers := draft.within_result plain distinct elementary ends within ends'
    suffices meet : ∀ (route : List Step) (leaf : Node) (expression : Expression)
        (preferred : Bool), template.at? route = some leaf → leaf.Holds expression preferred →
        ∃ one other, result'.at? route = some one ∧ result.at? route = some other ∧
          one.masked .contents = other.masked .contents by
      have whole := through'.draft'.lift congruent_same distinct elementary through.draft' meet
      exact whole
    intro route leaf expression preferred found holds
    rcases through.draft'.leaves found holds with ⟨held, atEnd, status⟩
    rcases through'.draft'.leaves found holds with ⟨held', atEnd', status'⟩
    refine ⟨held', held, atEnd', atEnd, ?_⟩
    rcases bounded.at? atEnd' with ⟨_, there, leaves'⟩
    cases atEnd.symm.trans there
    rcases covers.at? atEnd with ⟨_, there, leaves⟩
    cases atEnd'.symm.trans there
    rcases status with resolved | ⟨waiting, _⟩
    · exact leaves.same resolved
    · rcases status' with resolved' | ⟨waiting', _⟩
      · exact (leaves'.same resolved').symm
      · exact Node.masked_contents_congr
          ((through'.draft.leaf_value plain ends'.pass found holds atEnd' waiting').trans
            (through.draft.leaf_value plain ends.pass found holds atEnd waiting).symm)

end

end Resolution

end Stencil
