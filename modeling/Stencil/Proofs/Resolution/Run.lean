import Stencil.Resolution.Resolve
import Stencil.Proofs.Node.Masked

namespace Stencil

/-! A resolution as the sequence of its documents: each pass goes from one to the next,
and the last one changes no value any more. -/

namespace Resolution

/-- The binding of the whole document. -/
def root (answers : Answers) (stubs : List Node) : Binding := { stubs, answers }

/-- The document after a number of passes. -/
def treeAfter (answers : Answers) (stubs : List Node) : Nat → Node → Except Pause Node
  | 0, document => .ok document
  | passes + 1, document => do Pass.run answers stubs (← treeAfter answers stubs passes document)

variable {answers : Answers} {stubs : List Node} {template document : Node}

theorem treeAfter_succ {passes : Nat} {before after : Node}
    (reached : treeAfter answers stubs passes template = .ok before)
    (pass : Pass.run answers stubs before = .ok after) :
    treeAfter answers stubs (passes + 1) template = .ok after := by
  rw [treeAfter, reached]
  exact pass

theorem treeAfter_pred {passes : Nat} {after : Node}
    (reached : treeAfter answers stubs (passes + 1) template = .ok after) :
    ∃ before, treeAfter answers stubs passes template = .ok before ∧
      Pass.run answers stubs before = .ok after := by
  rw [treeAfter] at reached
  cases earlier : treeAfter answers stubs passes template with
  | error pause =>
      rw [earlier] at reached
      cases reached
  | ok before =>
      rw [earlier] at reached
      exact ⟨before, rfl, reached⟩

/-- A run goes on from the document after its first pass. -/
theorem treeAfter_first {passes : Nat} {after : Node}
    (reached : treeAfter answers stubs (passes + 1) template = .ok after) :
    ∃ first, Pass.run answers stubs template = .ok first ∧
      treeAfter answers stubs passes first = .ok after := by
  induction passes generalizing after with
  | zero =>
      rcases treeAfter_pred reached with ⟨_, ⟨⟩, pass⟩
      exact ⟨after, pass, rfl⟩
  | succ passes induction =>
      rcases treeAfter_pred reached with ⟨before, earlier, pass⟩
      rcases induction earlier with ⟨first, start, others⟩
      exact ⟨first, start, treeAfter_succ others pass⟩

/-- What holds at first and outlasts every pass holds in every document of a run. -/
theorem treeAfter_invariant {motive : Node → Prop} (first : motive template)
    (step : ∀ before after, motive before → Pass.run answers stubs before = .ok after →
      motive after)
    {passes : Nat} {reached : Node}
    (run : treeAfter answers stubs passes template = .ok reached) : motive reached := by
  induction passes generalizing reached with
  | zero =>
      cases run
      exact first
  | succ passes induction =>
      rcases treeAfter_pred run with ⟨before, earlier, pass⟩
      exact step before reached (induction earlier) pass

/-- What relates the documents before and after every pass relates any two documents of a
run, the earlier to the later one. -/
theorem treeAfter_related {related : Node → Node → Prop} (refl : ∀ node, related node node)
    (trans : ∀ first second third, related first second → related second third →
      related first third)
    {holds : Node → Prop}
    (invariant : ∀ passes document, treeAfter answers stubs passes template = .ok document →
      holds document)
    (step : ∀ before after, holds before → Pass.run answers stubs before = .ok after →
      related before after)
    {early passes : Nat} {before after : Node}
    (first : treeAfter answers stubs early template = .ok before)
    (last : treeAfter answers stubs (early + passes) template = .ok after) :
    related before after := by
  induction passes generalizing after with
  | zero =>
      rw [Nat.add_zero, first] at last
      cases last
      exact refl before
  | succ passes induction =>
      rcases treeAfter_pred last with ⟨middle, earlier, pass⟩
      exact trans _ _ _ (induction earlier) (step middle after (invariant _ _ earlier) pass)

/-- Where something stops to hold in a run, there is a pass in which it stops. -/
theorem treeAfter_change {holds : Node → Prop} (first : holds template) {passes : Nat}
    {document : Node} (reached : treeAfter answers stubs passes template = .ok document)
    (stops : ¬ holds document) :
    ∃ early before after, early < passes ∧
      treeAfter answers stubs early template = .ok before ∧ holds before ∧
      Pass.run answers stubs before = .ok after ∧ ¬ holds after := by
  induction passes generalizing document with
  | zero =>
      cases reached
      exact absurd first stops
  | succ passes induction =>
      rcases treeAfter_pred reached with ⟨before, earlier, pass⟩
      by_cases still : holds before
      · exact ⟨passes, before, document, Nat.lt_succ_self passes, earlier, still, pass, stops⟩
      · rcases induction earlier still with ⟨early, found⟩
        exact ⟨early, found.imp fun _ => Exists.imp fun _ =>
          And.imp_left (Nat.lt_succ_of_lt ·)⟩

/-! What a resolution says about its run. -/

/-- The run behind a resolution: the document before the last pass and what that pass did. -/
structure Settled (answers : Answers) (stubs : List Node) (template : Node)
    (resolution : Resolution) (last : Node) : Prop where
  passes : 0 < resolution.passes
  reached : treeAfter answers stubs (resolution.passes - 1) template = .ok last
  pass : Pass.run answers stubs last = .ok resolution.document
  same : (resolution.document == last) = true
  unresolved : resolution.unresolved = resolution.document.unresolved

theorem settled_of_settle {limit passes : Nat} {resolution : Resolution}
    (settles : settle answers stubs limit passes document = .ok (some resolution))
    (reached : treeAfter answers stubs passes template = .ok document) :
    ∃ last, Settled answers stubs template resolution last := by
  induction limit generalizing passes document with
  | zero => cases settles
  | succ limit induction =>
      rw [settle] at settles
      cases pass : Pass.run answers stubs document with
      | error pause =>
          rw [pass] at settles
          cases settles
      | ok next =>
          rw [pass] at settles
          cases same : next == document with
          | true =>
              simp only [bind, Except.bind, same, if_true] at settles
              cases settles
              exact ⟨document, Nat.succ_pos passes, reached, pass, same, rfl⟩
          | false =>
              simp only [bind, Except.bind, same, Bool.false_eq_true, if_false] at settles
              exact induction settles (treeAfter_succ reached pass)

theorem settled_of_partly {limit : Nat} {resolution : Resolution}
    (result : partly answers limit stubs template = .ok (.ok resolution)) :
    ∃ last, Settled answers stubs template resolution last := by
  unfold partly at result
  cases settles : settle answers stubs limit 0 template with
  | error pause =>
      rw [settles] at result
      cases result
  | ok settled =>
      rw [settles] at result
      cases settled with
      | none => cases result
      | some found =>
          cases result
          exact settled_of_settle settles rfl

theorem settled_of_whole {resolution : Resolution}
    (result : whole answers stubs template = .ok (.ok resolution)) :
    (∃ last, Settled answers stubs template resolution last) ∧ resolution.unresolved = [] := by
  unfold whole at result
  cases settles : partly answers defaultLimit stubs template with
  | error pause =>
      rw [settles] at result
      cases result
  | ok settled =>
      rw [settles] at result
      cases settled with
      | error fault => cases result
      | ok found =>
          simp only [bind, Except.bind, pure, Except.pure, complete] at result
          split at result
          · rename_i complete
            cases result
            exact ⟨settled_of_partly settles, List.isEmpty_iff.mp complete⟩
          · cases result

theorem Settled.final {resolution : Resolution} {last : Node}
    (settled : Settled answers stubs template resolution last) :
    treeAfter answers stubs resolution.passes template = .ok resolution.document := by
  have reached := treeAfter_succ settled.reached settled.pass
  rwa [Nat.sub_add_cancel settled.passes] at reached

/-- The resolution that there is, unless something paused or failed. -/
def found? (result : Except Pause (Except ResolutionFault Resolution)) : Option Resolution :=
  result.toOption.bind Except.toOption

theorem found?_eq_some_iff {result : Except Pause (Except ResolutionFault Resolution)}
    {resolution : Resolution} :
    found? result = some resolution ↔ result = .ok (.ok resolution) := by
  constructor
  · intro found
    cases result with
    | error pause => cases found
    | ok result =>
        cases result with
        | error fault => cases found
        | ok resolution =>
            cases found
            rfl
  · rintro rfl
    rfl

end Resolution

/-! A document without unresolved nodes is resolved. -/

mutual
theorem Value.isResolved_of_places : ∀ (value : Value) (place : Place),
    value.isLocallyResolved →
      (∀ found ∈ value.placesBelow place, found.2.isLocallyResolved) → value.isResolved
  | .list entries, place, _, below => entriesResolved_of_places entries place 0 below
  | .map fields, place, _, below => fieldsResolved_of_places fields place below
  | .null, _, here, _ | .boolean _, _, here, _ | .integer _, _, here, _ | .decimal _, _, here, _
  | .text _, _, here, _ | .expression _, _, here, _ | .lambda _ _ _, _, here, _ => here

theorem Node.isResolved_of_places : ∀ (node : Node) (place : Place),
    (∀ found ∈ node.placesFrom place, found.2.isLocallyResolved) → node.isResolved
  | .mk value _, place, all => by
      rw [Node.placesFrom, List.forall_mem_cons] at all
      exact Value.isResolved_of_places value place all.1 all.2

theorem entriesResolved_of_places : ∀ (entries : List Node) (place : Place) (index : Nat),
    (∀ found ∈ entryPlaces place index entries, found.2.isLocallyResolved) →
      entriesResolved entries
  | [], _, _, _ => rfl
  | entry :: entries, place, index, all => by
      rw [entryPlaces, List.forall_mem_append] at all
      rw [entriesResolved, Bool.and_eq_true]
      exact ⟨Node.isResolved_of_places entry _ all.1,
        entriesResolved_of_places entries place (index + 1) all.2⟩

theorem fieldsResolved_of_places : ∀ (fields : List (String × Node)) (place : Place),
    (∀ found ∈ fieldPlaces place fields, found.2.isLocallyResolved) → fieldsResolved fields
  | [], _, _ => rfl
  | (_, field) :: fields, place, all => by
      rw [fieldPlaces, List.forall_mem_append] at all
      rw [fieldsResolved, Bool.and_eq_true]
      exact ⟨Node.isResolved_of_places field _ all.1,
        fieldsResolved_of_places fields place all.2⟩
end

theorem Node.isResolved_of_unresolved {document : Node} (none : document.unresolved = []) :
    document.isResolved := by
  apply document.isResolved_of_places .root
  intro found member
  unfold Node.unresolved at none
  rw [List.filterMap_eq_nil_iff] at none
  have here := none found member
  cases resolved : found.2.isLocallyResolved with
  | true => rfl
  | false => simp [resolved] at here

/-- A complete resolution ends with a resolved document. -/
theorem Resolution.final_of_whole {answers : Answers} {stubs : List Node} {template : Node}
    {resolution : Resolution} (result : whole answers stubs template = .ok (.ok resolution)) :
    treeAfter answers stubs resolution.passes template = .ok resolution.document ∧
      resolution.document.isResolved := by
  rcases settled_of_whole result with ⟨⟨last, settled⟩, complete⟩
  exact ⟨settled.final, Node.isResolved_of_unresolved (settled.unresolved ▸ complete)⟩

end Stencil
