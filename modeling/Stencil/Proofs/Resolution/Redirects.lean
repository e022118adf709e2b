import Stencil.Proofs.Resolution.Passage
import Stencil.Proofs.Resolution.Persistence

namespace Stencil

/-! Where a collection has its entries looked up in the stubs once redirected markers merge into
it. The pass that merges follows the last redirect. What is noted for all later passes is the
first one. -/

namespace ListPlan

/-- The paths of the redirected merges into a list, in the order of the markers. -/
def redirects (evaluator : Evaluator) (binding : Binding) : List Node → List (List String)
  | [] => []
  | entry :: rest =>
      match listMarker? entry with
      | none => redirects evaluator binding rest
      | some marker =>
          match Marker.evaluate evaluator binding marker with
          | .ok (.merge (.mk (.list _) _) (some path) _) =>
              path :: redirects evaluator (binding.withStubPath path) rest
          | _ => redirects evaluator binding rest

variable {evaluator : Evaluator} {names : List String} {binding place : Binding}
  {redirect redirect' : Option (List String)} {merged merged' : Bool} {entry : Node}
  {entries : List Node} {steps : List EntryStep}

theorem redirects_brought {marker : Node} {added : List Node} {annotations : Annotations}
    {moved : Option (List String)} {replace : Bool} (held : listMarker? entry = some marker)
    (evaluated : Marker.evaluate evaluator binding marker =
      .ok (.merge (.mk (.list added) annotations) moved replace)) :
    redirects evaluator binding (entry :: entries) =
      moved.toList ++ redirects evaluator (Pass.followRedirect binding moved) entries := by
  simp only [redirects, held, evaluated]
  cases moved <;> rfl

theorem redirects_plain (plain : ∀ marker added annotations moved replace,
      listMarker? entry = some marker → Marker.evaluate evaluator binding marker ≠
        .ok (.merge (.mk (.list added) annotations) moved replace)) :
    redirects evaluator binding (entry :: entries) = redirects evaluator binding entries := by
  rw [redirects]
  split
  · rfl
  · rename_i marker held
    split
    · rename_i evaluated
      exact absurd evaluated (plain marker _ _ _ _ held)
    · rfl

/-- The visits go on below the last path, and the first one is noted. -/
theorem ofEntries_redirects
    (ends : ofEntries evaluator names binding redirect merged entries =
      .ok (.entries steps place redirect' merged')) :
    place = binding.withStubPath
        ((redirects evaluator binding entries).getLast?.getD binding.stubPath) ∧
      redirect' = (redirect <|> (redirects evaluator binding entries).head?) := by
  induction entries generalizing binding redirect merged steps with
  | nil =>
      cases ends
      exact ⟨rfl, by cases redirect' <;> rfl⟩
  | cons entry entries induction =>
      generalize whole : ListPlan.entries steps place redirect' merged' = plan at ends
      cases ofEntries_begins ends with
      | replaced held evaluated => cases whole
      | @merged _ _ _ moved _ held evaluated others =>
          rcases addStep_entries whole.symm with ⟨steps, rfl⟩
          rcases induction others with ⟨rfl, rfl⟩
          rw [redirects_brought held evaluated]
          cases moved with
          | none => cases redirect <;> exact ⟨rfl, rfl⟩
          | some path =>
              rw [Option.toList_some, List.singleton_append, List.getLast?_cons, List.head?_cons]
              cases redirect <;> exact ⟨rfl, rfl⟩
      | unmerged step plain others =>
          rcases addStep_entries whole.symm with ⟨steps, rfl⟩
          rw [redirects_plain plain]
          exact induction others

/-- A list that is replaced as a whole may be redirected by the marker that replaces it. -/
theorem replaced_redirects {added : List Node} {path : List String}
    (ends : ofEntries evaluator names binding redirect merged entries =
      .ok (.replaced added (some path))) : redirects evaluator binding entries ≠ [] := by
  induction entries generalizing binding redirect merged with
  | nil => cases ends
  | cons entry entries induction =>
      generalize whole : ListPlan.replaced added (some path) = plan at ends
      cases ofEntries_begins ends with
      | replaced held evaluated =>
          cases whole
          rw [redirects_brought held evaluated]
          exact List.cons_ne_nil path _
      | merged held evaluated others =>
          cases addStep_replaced whole.symm
          rw [redirects_brought held evaluated]
          exact List.append_ne_nil_of_right_ne_nil _ (induction others)
      | unmerged step plain others =>
          cases addStep_replaced whole.symm
          rw [redirects_plain plain]
          exact induction others

end ListPlan

/-! ## One pass -/

namespace Visit

/-- The paths of the redirected merges into a collection in a pass. -/
def redirects (evaluator : Evaluator) (visit : Visit) : List (List String) :=
  match visit.node with
  | .mk (.map fields) annotations =>
      match MapPlan.ofFields evaluator ((Pass.inside visit.binding annotations).withScope fields)
          fields with
      | .ok (.fields _ redirect _) | .ok (.replaced _ redirect) => redirect.toList
      | .error _ => []
  | .mk (.list entries) annotations =>
      ListPlan.redirects evaluator (Pass.inside visit.binding annotations) entries
  | _ => []

/-- Where a node is looked up in the stubs. -/
def lookupPath (visit : Visit) : List String :=
  visit.node.redirect.getD visit.binding.stubPath

/-- Where the entries of a collection are looked up. -/
def entriesPath (evaluator : Evaluator) (visit : Visit) : List String :=
  (visit.redirects evaluator).getLast?.getD visit.lookupPath

variable {evaluator : Evaluator} {visit next : Visit} {step : Step}

/-- The name of an entry is one step in the document and in the stubs. -/
theorem entered_paths (entered : Pass.Enters evaluator visit step next) :
    ∃ name, next.binding.path = visit.binding.path ++ [name] ∧
      next.binding.stubPath = visit.entriesPath evaluator ++ [name] := by
  cases entered with
  | @field binding _ _ fields annotations key _ _ redirect _ planned ordinary held =>
      simp only [entriesPath, redirects, lookupPath, planned, Node.redirect, Node.annotations_mk]
      rw [← Pass.path_inside binding annotations, ← Pass.stubPath_inside]
      cases redirect <;> exact ⟨key, rfl, rfl⟩
  | @entry binding place _ _ entries annotations index entry steps _ _ planned visited held =>
      rcases ListPlan.ofEntries_redirects planned with ⟨rfl, _⟩
      simp only [entriesPath, redirects, lookupPath, Node.redirect, Node.annotations_mk]
      rw [← Pass.path_inside binding annotations, ← Pass.stubPath_inside]
      exact ⟨stepName (EntryStep.offset steps index) entry, rfl, rfl⟩

/-- A collection that is not replaced notes the first path. -/
theorem redirect_noted {result : Node} (entered : Pass.Enters evaluator visit step next)
    (ends : Pass.visit evaluator visit.binding visit.mode visit.node = .ok result) :
    result.redirect = ((visit.redirects evaluator).head? <|> visit.node.redirect) := by
  cases entered with
  | @field _ _ _ _ _ _ _ _ redirect _ planned ordinary held =>
      rcases Pass.visit_map_planned planned ends with ⟨fields', _, rfl⟩
      simp only [redirects, planned]
      cases redirect <;> rfl
  | @entry binding place _ _ entries annotations index entry steps _ _ planned visited held =>
      rcases Pass.visit_list_entries_planned planned ends with ⟨entries', _, rfl⟩
      rcases ListPlan.ofEntries_redirects planned with ⟨_, rfl⟩
      rfl

end Visit

/-- A collection with a redirect. A map has no marker besides. -/
structure Node.IsRedirected (path : List String) (node : Node) : Prop where
  collection : node.kind = .map ∨ node.kind = .list
  redirect : node.redirect = some path
  unmarked : node.kind = .map → node.isUnmarked

namespace Visit

variable {evaluator : Evaluator} {visit next : Visit} {step : Step} {path : List String}
  {result : Node}

/-- A map has no redirected marker any more once one has merged. -/
theorem redirects_of_unmarked (map : visit.node.kind = .map) (unmarked : visit.node.isUnmarked) :
    visit.redirects evaluator = [] := by
  rcases visit with ⟨binding, mode, ⟨value, annotations⟩, route⟩
  cases value with
  | map fields =>
      have absent : fields.lookup markerKey = none := Option.isNone_iff_eq_none.mp unmarked
      simp only [redirects, MapPlan.ofFields, absent]
      rfl
  | _ => cases map

/-- At most one redirected marker merges into a map. -/
theorem redirects_of_map {more : List (List String)} (map : visit.node.kind = .map)
    (redirected : visit.redirects evaluator = path :: more) : more = [] := by
  rcases visit with ⟨binding, mode, ⟨value, annotations⟩, route⟩
  cases value with
  | map fields =>
      unfold redirects at redirected
      simp only at redirected
      split at redirected
      · rename_i redirect _ _
        cases redirect with
        | none => cases redirected
        | some path => exact (List.cons.inj redirected).2.symm
      · rename_i redirect _
        cases redirect with
        | none => cases redirected
        | some path => exact (List.cons.inj redirected).2.symm
      · cases redirected
  | _ => cases map

/-- The merge of redirected markers redirects the collection. -/
theorem isRedirected_of_merge {more : List (List String)}
    (redirected : visit.redirects evaluator = path :: more)
    (entered : Pass.Enters evaluator visit step next)
    (ends : Pass.visit evaluator visit.binding visit.mode visit.node = .ok result) :
    result.IsRedirected path := by
  have noted := redirect_noted entered ends
  rw [redirected, List.head?_cons] at noted
  cases entered with
  | @field binding mode _ fields annotations key _ marker redirect base planned ordinary held =>
      refine ⟨.inl (Pass.visit_kind (.inl rfl) ends), noted, fun _ => ?_⟩
      simp only [redirects, planned] at redirected
      rcases Pass.visit_map_planned planned ends with ⟨fields', visited, rfl⟩
      have follows := MapPlan.ofFields_follows planned
      cases follows with
      | ordinary | dropped | kept => cases redirected
      | @merged _ base _ held brings =>
          -- The marker goes away, and the base brings no other one.
          have gone := Pass.visitFields_marker visited nofun
          rw [held, Option.bind_some] at gone
          exact Option.isNone_iff_eq_none.mpr
            ((MapPlan.addBase_marker fields' (some base)).trans gone)
  | entry planned visited held =>
      have kind := Pass.visit_kind (.inr rfl) ends
      exact ⟨.inr kind, noted, fun other => nomatch kind.symm.trans other⟩

/-- A redirected collection stays so until another redirected marker merges into it. -/
theorem isRedirected_of_visit (redirected : visit.node.IsRedirected path)
    (quiet : visit.node.kind = .list → visit.redirects evaluator = [])
    (ends : Pass.visit evaluator visit.binding visit.mode visit.node = .ok result) :
    result.IsRedirected path := by
  rcases visit with ⟨binding, mode, ⟨value, annotations⟩, route⟩
  cases value with
  | map fields =>
      have absent : fields.lookup markerKey = none :=
        Option.isNone_iff_eq_none.mp (redirected.unmarked rfl)
      rcases Pass.visit_map_ends (markerResolved_of_absent absent) ends with
        ⟨fields', rfl, visited⟩
      exact ⟨.inl rfl, redirected.redirect,
        fun _ => Option.isNone_iff_eq_none.mpr (Pass.visitFields_fresh visited absent)⟩
  | list entries =>
      have quiet : ListPlan.redirects evaluator (Pass.inside binding annotations) entries = [] :=
        quiet rfl
      have begun := ends
      rw [Pass.visit] at begun
      rcases ok_of_bind begun with ⟨plan, planned, begun⟩
      cases plan with
      | replaced added moved =>
          cases begun
          cases moved with
          | none => exact ⟨.inr rfl, redirected.redirect, nofun⟩
          | some moved => exact absurd quiet (ListPlan.replaced_redirects planned)
      | entries steps place moved merged =>
          rcases Pass.visit_list_entries_planned planned ends with ⟨entries', _, rfl⟩
          have unmoved := (ListPlan.ofEntries_redirects planned).2
          unfold Pass.inside at quiet
          rw [quiet] at unmoved
          subst unmoved
          exact ⟨.inr rfl, redirected.redirect, nofun⟩
  | _ => rcases redirected.collection with kind | kind <;> cases kind

end Visit

/-- An entry of a collection, or a node further down in collections that are not redirected. The
names are the steps that lead there. -/
inductive Visit.Below (evaluator : Evaluator) (visit : Visit) : List String → Visit → Prop where
  | entry {name : String} {step : Step} {next : Visit}
      (entered : Pass.enter evaluator visit step = .ok (some next))
      (named : next.binding.path = visit.binding.path ++ [name]) :
      Below evaluator visit [name] next
  | further {names : List String} {name : String} {step : Step} {inner next : Visit}
      (earlier : Below evaluator visit names inner) (direct : inner.node.redirect = none)
      (quiet : inner.redirects evaluator = [])
      (entered : Pass.enter evaluator inner step = .ok (some next))
      (named : next.binding.path = inner.binding.path ++ [name]) :
      Below evaluator visit (names ++ [name]) next

namespace Visit.Below

variable {evaluator : Evaluator} {visit below : Visit} {names : List String}

theorem stubPath (nested : visit.Below evaluator names below) :
    below.binding.stubPath = visit.entriesPath evaluator ++ names := by
  induction nested with
  | entry entered named =>
      rcases entered_paths (Pass.enters entered) with ⟨name, path, stubPath⟩
      rw [path, List.append_cancel_left_eq] at named
      rw [stubPath, named]
  | further earlier direct quiet entered named induction =>
      rcases entered_paths (Pass.enters entered) with ⟨name, path, stubPath⟩
      rw [path, List.append_cancel_left_eq] at named
      rw [stubPath, named, entriesPath, quiet, List.getLast?_nil, Option.getD_none, lookupPath,
        direct, Option.getD_none, induction, List.append_assoc]

theorem lookupPath (nested : visit.Below evaluator names below)
    (direct : below.node.redirect = none) :
    below.lookupPath = visit.entriesPath evaluator ++ names := by
  rw [Visit.lookupPath, direct, Option.getD_none, nested.stubPath]

/-- Something is entered on the way. -/
theorem enters (nested : visit.Below evaluator names below) :
    ∃ step next, Pass.Enters evaluator visit step next := by
  induction nested with
  | entry entered named => exact ⟨_, _, Pass.enters entered⟩
  | further _ _ _ _ _ induction => exact induction

end Visit.Below

namespace Resolution

variable {answers : Answers} {stubs : List Node} {template : Node} {early passes : Nat}
  {route place : List Step} {first visit entry entry' : Visit} {path : List String}
  {more : List (List String)} {names : List String}

/-- Let redirected markers merge into a collection in a pass. This pass looks its entries up below
the path of the last one. All later passes, until redirected markers merge into it again, look them
up below the path of the first one. So the path of an entry persists if and only if the two are the
same. In a map there is one marker only, and none ever again. -/
theorem redirect_persists
    (merging : visit? answers stubs template early route = some first)
    (redirected : first.redirects (Expression.evaluate Expression.callDepth) = path :: more)
    (later : early < passes) (leads : Leads answers stubs template early route passes place)
    (visited : visit? answers stubs template passes place = some visit)
    (quiet : ∀ middle position visit, early < middle → middle ≤ passes →
      Leads answers stubs template early route middle position →
      visit? answers stubs template middle position = some visit → visit.node.kind = .list →
      visit.redirects (Expression.evaluate Expression.callDepth) = [])
    (before : first.Below (Expression.evaluate Expression.callDepth) names entry)
    (direct : entry.node.redirect = none)
    (after : visit.Below (Expression.evaluate Expression.callDepth) names entry')
    (direct' : entry'.node.redirect = none) :
    entry.lookupPath = (path :: more).getLast (List.cons_ne_nil path more) ++ names ∧
      entry'.lookupPath = path ++ names ∧
      (entry.lookupPath = entry'.lookupPath ↔
        (path :: more).getLast (List.cons_ne_nil path more) = path) ∧
      (first.node.kind = .map → more = []) := by
  rcases visit?_eq_some_iff.mp visited with ⟨document, reached, here⟩
  rcases leads.after later with ⟨same, found, onward⟩
  cases found.symm.trans merging
  rcases treeAfter_earlier later reached with ⟨next, run⟩
  rcases visit?_pass merging run with ⟨start, _, there, pass⟩
  rcases run_visit pass there with ⟨_, _, _, result, leaves⟩
  rcases before.enters with ⟨step, child, entered⟩
  -- The collection is marked with the first path, and the passes after that leave the mark.
  have noted : ∃ node, next.at? first.route = some node ∧ node.IsRedirected path :=
    ⟨result, leaves.stands, Visit.isRedirected_of_merge redirected entered leaves.ends⟩
  have kept := onward.keeps run noted (fun middle document position other document' result late
      soon reached leads visited _ _ leaves held => Visit.isRedirected_of_visit held
        (quiet middle position other late (Nat.le_of_lt soon) (leads.before merging)
          (visit?_eq_some_iff.mpr ⟨document, reached, visited⟩)) leaves.ends) reached
  rcases kept with ⟨_, node, found, held⟩
  cases found.symm.trans (Pass.follow_node here)
  have unmoved : visit.redirects (Expression.evaluate Expression.callDepth) = [] := by
    rcases held.collection with map | list
    · exact Visit.redirects_of_unmarked map (held.unmarked map)
    · exact quiet passes place visit later (Nat.le_refl passes) leads visited list
  have merged : entry.lookupPath =
      (path :: more).getLast (List.cons_ne_nil path more) ++ names := by
    rw [before.lookupPath direct, Visit.entriesPath, redirected,
      List.getLast?_eq_some_getLast (List.cons_ne_nil path more), Option.getD_some]
  have settled : entry'.lookupPath = path ++ names := by
    rw [after.lookupPath direct', Visit.entriesPath, unmoved, List.getLast?_nil, Option.getD_none,
      Visit.lookupPath, held.redirect, Option.getD_some]
  refine ⟨merged, settled, ?_, fun map => Visit.redirects_of_map map redirected⟩
  rw [merged, settled, List.append_cancel_right_eq]

/-! Two markers with different paths: the pass that merges follows the second one, and the next
pass the first one. -/

section

/-- A list with the markers, and with an entry in which an expression waits for another one. -/
def twiceRedirected : Node :=
  .mk (.map [
    ("l", .mk (.list [
      .mk (.map [(markerKey, .mk (.text "(( merge p ))") {})]) {},
      .mk (.map [(markerKey, .mk (.text "(( merge q ))") {})]) {},
      .mk (.map [("name", .mk (.text "a") {}), ("v", .mk (.text "(( x ))") {})]) {}]) {}),
    ("x", .mk (.text "(( y ))") {}), ("y", .mk (.integer 5) {})]) {}

def redirectStubs : List Node :=
  [.mk (.map [
    ("p", .mk (.list [
      .mk (.map [("name", .mk (.text "a") {}), ("v", .mk (.integer 1) {})]) {}]) {}),
    ("q", .mk (.list [.mk (.map [("name", .mk (.text "b") {})]) {}]) {})]) {}]

/-- An expression in the field of an entry that a visit of a list leads to. -/
def pendingField? (visit : Visit) (index : Nat) (name key : String) : Option Visit :=
  (Pass.enter (Expression.evaluate Expression.callDepth) visit (.entry index)).toOption.join.bind
    fun inner => (Pass.enter (Expression.evaluate Expression.callDepth) inner
      (.field key)).toOption.join.filter fun entry =>
        inner.binding.path == visit.binding.path ++ [name] && inner.node.redirect.isNone &&
          (inner.redirects (Expression.evaluate Expression.callDepth)).isEmpty &&
          entry.binding.path == inner.binding.path ++ [key] && entry.node.redirect.isNone &&
          !entry.node.isLocallyResolved

theorem below_of_pendingField {visit entry : Visit} {index : Nat} {name key : String}
    (found : pendingField? visit index name key = some entry) :
    visit.Below (Expression.evaluate Expression.callDepth) [name, key] entry ∧
      entry.node.redirect = none ∧ entry.node.isLocallyResolved = false := by
  rcases Option.bind_eq_some_iff.mp found with ⟨inner, entered, found⟩
  rcases Option.filter_eq_some_iff.mp found with ⟨further, checks⟩
  simp only [Bool.and_eq_true, beq_iff_eq, Option.isNone_iff_eq_none, List.isEmpty_iff,
    Bool.not_eq_true'] at checks
  rcases checks with ⟨⟨⟨⟨⟨named, direct⟩, quiet⟩, named'⟩, direct'⟩, pending⟩
  rw [toOption_join_eq_some_iff] at entered further
  exact ⟨.further (.entry entered named) direct quiet further named', direct', pending⟩

theorem twiceRedirected_visits :
    ∃ first visit entry entry',
      (visit? .none redirectStubs twiceRedirected 0 (["l"].map .field) = some first ∧
        first.redirects (Expression.evaluate Expression.callDepth) = [["p"], ["q"]] ∧
        pendingField? first 2 "a" "v" = some entry) ∧
      (visit? .none redirectStubs twiceRedirected 1 (["l"].map .field) = some visit ∧
        visit.redirects (Expression.evaluate Expression.callDepth) = [] ∧
        pendingField? visit 1 "a" "v" = some entry') ∧
      first.entriesPath (Expression.evaluate Expression.callDepth) = ["q"] ∧
      visit.entriesPath (Expression.evaluate Expression.callDepth) = ["p"] := by
  have here : (visit? .none redirectStubs twiceRedirected 0 (["l"].map .field)).any fun first =>
      first.redirects (Expression.evaluate Expression.callDepth) == [["p"], ["q"]] &&
        (pendingField? first 2 "a" "v").isSome &&
        first.entriesPath (Expression.evaluate Expression.callDepth) == ["q"] := by
    decide +kernel
  have there : (visit? .none redirectStubs twiceRedirected 1 (["l"].map .field)).any fun visit =>
      visit.redirects (Expression.evaluate Expression.callDepth) == [] &&
        (pendingField? visit 1 "a" "v").isSome &&
        visit.entriesPath (Expression.evaluate Expression.callDepth) == ["p"] := by
    decide +kernel
  rcases (Option.any_eq_true _ _).mp here with ⟨first, merging, checks⟩
  rcases (Option.any_eq_true _ _).mp there with ⟨visit, visited, checks'⟩
  rw [Bool.and_eq_true, Bool.and_eq_true, beq_iff_eq, beq_iff_eq] at checks checks'
  rcases Option.isSome_iff_exists.mp checks.1.2 with ⟨entry, found⟩
  rcases Option.isSome_iff_exists.mp checks'.1.2 with ⟨entry', found'⟩
  exact ⟨first, visit, entry, entry', ⟨merging, checks.1.1, found⟩, ⟨visited, checks'.1.1, found'⟩,
    checks.2, checks'.2⟩

theorem twiceRedirected_leads :
    Leads .none redirectStubs twiceRedirected 0 (["l"].map .field) 1 (["l"].map .field) := by
  rcases twiceRedirected_visits with ⟨first, _, _, _, ⟨merging, _⟩, _⟩
  rcases visit?_eq_some_iff.mp merging with ⟨document, reached, visited⟩
  have leads := Leads.start.pass reached visited
  rwa [Pass.follow_keys visited] at leads

theorem redirect_persists_markers :
    ∃ first visit entry entry',
      visit? .none redirectStubs twiceRedirected 0 (["l"].map .field) = some first ∧
      visit? .none redirectStubs twiceRedirected 1 (["l"].map .field) = some visit ∧
      first.Below (Expression.evaluate Expression.callDepth) ["a", "v"] entry ∧
      visit.Below (Expression.evaluate Expression.callDepth) ["a", "v"] entry' ∧
      entry.lookupPath = ["q", "a", "v"] ∧ entry'.lookupPath = ["p", "a", "v"] := by
  rcases twiceRedirected_visits with
    ⟨first, visit, entry, entry', ⟨merging, redirected, found⟩, ⟨visited, unmoved, found'⟩, _⟩
  rcases below_of_pendingField found with ⟨before, direct, _⟩
  rcases below_of_pendingField found' with ⟨after, direct', _⟩
  have quiet : ∀ middle position other, 0 < middle → middle ≤ 1 →
      Leads .none redirectStubs twiceRedirected 0 (["l"].map .field) middle position →
      visit? .none redirectStubs twiceRedirected middle position = some other →
      other.node.kind = .list →
      other.redirects (Expression.evaluate Expression.callDepth) = [] := by
    intro middle position other late soon leads here _
    cases Nat.le_antisymm soon late
    rw [leads.keys, visited] at here
    cases here
    exact unmoved
  rcases redirect_persists merging redirected Nat.zero_lt_one twiceRedirected_leads visited quiet
    before direct after direct' with ⟨merged, settled, _⟩
  exact ⟨first, visit, entry, entry', merging, visited, before, after, merged, settled⟩

theorem redirect_lost :
    ¬ ∀ (answers : Answers) (stubs : List Node) (template : Node) (early passes : Nat)
        (route place : List Step) (first visit entry entry' : Visit) (names : List String),
      visit? answers stubs template early route = some first →
      first.redirects (Expression.evaluate Expression.callDepth) ≠ [] → early < passes →
      Leads answers stubs template early route passes place →
      visit? answers stubs template passes place = some visit →
      first.Below (Expression.evaluate Expression.callDepth) names entry →
      entry.node.isLocallyResolved = false →
      visit.Below (Expression.evaluate Expression.callDepth) names entry' →
      entry'.node.isLocallyResolved = false → entry.lookupPath = entry'.lookupPath := by
  intro claim
  rcases twiceRedirected_visits with
    ⟨first, visit, entry, entry', ⟨merging, redirected, found⟩, ⟨visited, _, found'⟩, last, noted⟩
  rcases below_of_pendingField found with ⟨before, direct, pending⟩
  rcases below_of_pendingField found' with ⟨after, direct', pending'⟩
  have same := claim _ _ _ 0 1 _ _ first visit entry entry' _ merging
    (redirected ▸ List.cons_ne_nil _ _) Nat.zero_lt_one twiceRedirected_leads visited before pending
    after pending'
  rw [before.lookupPath direct, after.lookupPath direct', last, noted] at same
  exact absurd same (by decide)

end

end Resolution

end Stencil
