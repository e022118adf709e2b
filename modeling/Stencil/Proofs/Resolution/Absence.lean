import Stencil.Proofs.Resolution.Persistence

namespace Stencil

/-! A path that does not exist in one document of a run does not exist in the later ones, if
nothing is pending on its way. In the maps on its way no marker is an expression, and neither
is one in the lists. Where a step names an entry of a list, every entry that the name is
looked for at shows its name: the entry is no expression, nothing is to be merged into it, and
no expression stands in its field `name`. -/

/-- Every entry that the name is looked for at shows its name. -/
def showsNames (name : String) : List Node → Bool
  | [] => true
  | entry :: entries =>
      entry.isSettledEntry && entry.isMerged &&
        (entry.name? == some name || showsNames name entries)

/-- No pass changes to which child the step leads. -/
def Node.isFirm (node : Node) (step : String) : Bool :=
  match node.value with
  | .map fields => markerResolved fields
  | .list entries =>
      markersResolved entries && ((indexOf? step).isSome || showsNames step entries)
  | _ => true

/-- Nothing is pending on the way of the path. -/
def Node.isFirmAlong : Node → List String → Bool
  | _, [] => true
  | node, step :: rest =>
      node.isFirm step &&
        match node.child step with
        | .found next => next.isFirmAlong rest
        | .unresolved => false
        | .missing => true

/-- What is missing in the one is missing in the other, if nothing is pending on its way. -/
def Node.MissesAs (node later : Node) : Prop :=
  ∀ path, node.isFirmAlong path →
    later.isFirmAlong path ∧ (later.find path = .missing ↔ node.find path = .missing)

theorem Node.MissesAs.refl (node : Node) : node.MissesAs node :=
  fun _ firm => ⟨firm, Iff.rfl⟩

theorem Node.MissesAs.trans {first second third : Node} (early : first.MissesAs second)
    (late : second.MissesAs third) : first.MissesAs third := by
  intro path firm
  rcases early path firm with ⟨firm, same⟩
  rcases late path firm with ⟨firm, same'⟩
  exact ⟨firm, same'.trans same⟩

theorem Node.child_list (entries : List Node) (annotations : Annotations) (step : String) :
    (Node.mk (.list entries) annotations).child step = .ofOption (listEntry entries step) := rfl

/-! ## Passes -/

namespace Pass

variable {evaluator : Evaluator} {binding : Binding} {mode : Override}

/-- Entries that show their names go on to do so. -/
theorem visitEntries_showsNames {entries entries' : List Node} {index : Nat} {name : String}
    (quiet : mode ≠ .all) (shows : showsNames name entries)
    (ends : visitEntries evaluator binding mode false index (entries.map fun _ => .visit) entries =
      .ok entries') :
    showsNames name entries' ∧
      ((entries.find? (fun entry => entry.name? = some name) = none ∧
          entries'.find? (fun entry => entry.name? = some name) = none) ∨
        ∃ entry entry' step, entries.find? (fun entry => entry.name? = some name) = some entry ∧
          entries'.find? (fun entry => entry.name? = some name) = some entry' ∧
          visit evaluator (binding.withPath step) mode entry = .ok entry') := by
  induction entries generalizing index entries' with
  | nil =>
      rw [List.map_nil, visitEntries] at ends
      cases ends
      exact ⟨rfl, .inl ⟨rfl, rfl⟩⟩
  | cons entry entries induction =>
      rcases visitEntries_visit_ends ends with ⟨entry', rest, rfl, visited, others⟩
      rw [showsNames, Bool.and_eq_true, Bool.and_eq_true] at shows
      rcases shows with ⟨⟨settled, merged⟩, shows⟩
      have resolved : entry.isLocallyResolved := by
        rw [Node.isSettledEntry, Bool.and_eq_true] at settled
        exact settled.1
      rcases visit_settledEntry quiet settled merged visited with ⟨settled', same⟩
      have merged' := visit_isMerged quiet resolved merged visited
      rw [showsNames, List.find?_cons, List.find?_cons, settled', merged', same]
      by_cases here : entry.name? = some name
      · simp only [here, decide_true, beq_self_eq_true, Bool.true_or, Bool.and_self, true_and]
        exact .inr ⟨entry, entry', _, rfl, rfl, visited⟩
      · have other : (entry.name? == some name) = false := beq_eq_false_iff_ne.mpr here
        rw [other, Bool.false_or] at shows
        simp only [other, here, decide_false, Bool.false_or, Bool.true_and]
        exact induction shows others

/-- What a step leads to before and after a visit of a firm node. -/
inductive Led (evaluator : Evaluator) (place : Binding) : Lookup → Lookup → Prop where
  | unresolved {lookup : Lookup} : Led evaluator place .unresolved lookup
  | missing : Led evaluator place .missing .missing
  | visited {next next' : Node} {below : Binding} {mode : Override} (quiet : mode ≠ .all)
      (stubs : below.stubs = place.stubs) (answers : below.answers = place.answers)
      (ends : visit evaluator below mode next = .ok next') :
      Led evaluator place (.found next) (.found next')

/-- A step into a list without pending markers leads to an entry by its index, or by a name
that every entry shows. -/
theorem visit_firm_list {entries : List Node} {annotations : Annotations} {node' : Node}
    {step : String} (keeps : evaluator.KeepsUnmarked) (place : binding.IsUnmarked)
    (quiet : mode ≠ .all) (firm : (Node.mk (.list entries) annotations).isFirm step)
    (ends : visit evaluator binding mode (.mk (.list entries) annotations) = .ok node') :
    node'.isFirm step ∧
      Led evaluator binding ((Node.mk (.list entries) annotations).child step)
        (node'.child step) := by
  have firm : (markersResolved entries &&
      ((indexOf? step).isSome || showsNames step entries)) = true := firm
  rw [Bool.and_eq_true] at firm
  rcases firm with ⟨markers, names⟩
  rcases visit_list_ends markers ends with ⟨entries', rfl, visited⟩
  have quiet := Override.entries_ne_all quiet annotations.replace
  have markers' := visitEntries_markersResolved keeps (place.inside annotations) quiet markers
    visited
  have led : ∀ {entry entry' : Node} (name : String),
      visit evaluator ((inside binding annotations).withPath name)
          (mode.entries annotations.replace false) entry = .ok entry' →
        Led evaluator binding (.found entry) (.found entry') := by
    intro entry entry' name here
    refine .visited quiet ?_ ?_ here
    · exact stubs_inside binding annotations
    · exact answers_inside binding annotations
  rw [Node.child_list, Node.child_list, Node.listEntry, Node.listEntry]
  cases position : indexOf? step with
  | some index =>
      refine ⟨by simp [Node.isFirm, markers', position], ?_⟩
      rcases visitEntries_get visited index with
        ⟨absent, absent'⟩ | ⟨entry, entry', held, found, here⟩
      · simp only [absent, absent']
        exact .missing
      · simp only [held, found]
        exact led _ here
  | none =>
      rw [position, Option.isSome_none, Bool.false_or] at names
      rcases visitEntries_showsNames quiet names visited with ⟨names', entry⟩
      refine ⟨by simp [Node.isFirm, markers', names'], ?_⟩
      rcases entry with ⟨absent, absent'⟩ | ⟨entry, entry', name, held, found, here⟩
      · simp only [absent, absent']
        exact .missing
      · simp only [held, found]
        exact led _ here

theorem visit_firm {node node' : Node} {step : String} (keeps : evaluator.KeepsUnmarked)
    (place : binding.IsUnmarked) (quiet : mode ≠ .all) (firm : node.isFirm step)
    (ends : visit evaluator binding mode node = .ok node') :
    (node.child step = .unresolved ∨ node'.isFirm step) ∧
      Led evaluator binding (node.child step) (node'.child step) := by
  cases resolved : node.isLocallyResolved with
  | false =>
      rw [Node.child_of_unresolved resolved]
      exact ⟨.inl rfl, .unresolved⟩
  | true =>
      rcases node with ⟨value, annotations⟩
      cases value with
      | map fields =>
          rcases visit_map_ends firm ends with ⟨fields', rfl, visited⟩
          have quiet := Override.entries_ne_all quiet annotations.replace
          refine ⟨.inr (visitFields_markerResolved quiet firm visited), ?_⟩
          rcases visitFields_child quiet visited step with
            stopped | ⟨absent, absent'⟩ | ⟨next, next', held, found, here⟩
          · rw [stopped]
            exact .unresolved
          · rw [absent, absent']
            exact .missing
          · rw [held, found]
            refine .visited quiet ?_ ?_ here
            · exact stubs_inside binding annotations
            · exact answers_inside binding annotations
      | list entries =>
          rcases visit_firm_list keeps place quiet firm ends with ⟨firm', led⟩
          exact ⟨.inr firm', led⟩
      | _ =>
          rcases visit_cases quiet resolved ends with rfl | ⟨kind | kind, _⟩ <;> try cases kind
          refine ⟨.inr firm, ?_⟩
          unfold Node.child
          simp only [resolved, Bool.not_true, Bool.false_eq_true, if_false, Node.value_mk]
          exact .missing

/-- What a path with nothing pending on its way does not lead to, it does not lead to after a
pass. -/
theorem visit_missesAs {node node' : Node} (keeps : evaluator.KeepsUnmarked)
    (place : binding.IsUnmarked) (quiet : mode ≠ .all)
    (ends : visit evaluator binding mode node = .ok node') : node.MissesAs node' := by
  intro path firm
  induction path generalizing node node' binding mode with
  | nil => exact ⟨rfl, iff_of_false Lookup.noConfusion Lookup.noConfusion⟩
  | cons step rest induction =>
      rw [Node.isFirmAlong, Bool.and_eq_true] at firm
      rcases firm with ⟨firm, below⟩
      rcases visit_firm keeps place quiet firm ends with ⟨firm', led⟩
      rw [Node.isFirmAlong, Node.find, Node.find, Bool.and_eq_true]
      generalize node.child step = lookup at below firm' led ⊢
      generalize node'.child step = lookup' at led ⊢
      cases led with
      | unresolved => cases below
      | missing => exact ⟨⟨firm'.resolve_left Lookup.noConfusion, rfl⟩, Iff.rfl⟩
      | visited quiet stubs answers ends =>
          rcases induction (place.of_same stubs answers) quiet ends below with ⟨along, same⟩
          exact ⟨⟨firm'.resolve_left Lookup.noConfusion, along⟩, same⟩

end Pass

/-! ## Lookups from inside a document -/

/-- What is missing below a field of the one map is missing below that of the other. -/
def FieldsMissAs (fields laters : List (String × Node)) : Prop :=
  ∀ key, Option.Rel Node.MissesAs (fields.lookup key) (laters.lookup key)

namespace Binding

def isFirmIn (scopes : List (List (String × Node))) : List String → Bool
  | [] => true
  | first :: rest =>
      (scopes.findSome? fun fields => fields.lookup first).all fun node => node.isFirmAlong rest

/-- Nothing is pending on the way of the path from the nearest scope that has its first step. -/
def isFirmAlong (binding : Binding) (path : List String) : Bool :=
  isFirmIn (binding.searched path).1 (binding.searched path).2

/-- What is missing from the one place is missing from the other. -/
structure MissesAs (binding later : Binding) : Prop where
  locals : FieldsMissAs binding.locals later.locals
  scopes : List.Forall₂ FieldsMissAs binding.scopes later.scopes

theorem findNearest_missing {scopes laters : List (List (String × Node))}
    (misses : List.Forall₂ FieldsMissAs scopes laters) {path : List String}
    (firm : isFirmIn scopes path) :
    isFirmIn laters path ∧
      (findNearest laters path = .missing ↔ findNearest scopes path = .missing) := by
  cases path with
  | nil => exact ⟨rfl, Iff.rfl⟩
  | cons first rest =>
      have nodes := VisitedBy.findSome misses first
      rw [isFirmIn] at firm ⊢
      rw [findNearest, findNearest]
      generalize (scopes.findSome? fun fields => fields.lookup first) = node at nodes firm ⊢
      generalize (laters.findSome? fun fields => fields.lookup first) = later at nodes ⊢
      cases nodes with
      | none => exact ⟨rfl, Iff.rfl⟩
      | some same => exact same rest firm

theorem MissesAs.lookup {binding later : Binding} (misses : binding.MissesAs later)
    {path : List String} (firm : binding.isFirmAlong path) :
    later.isFirmAlong path ∧ (later.lookup path = .missing ↔ binding.lookup path = .missing) := by
  have searched : List.Forall₂ FieldsMissAs (binding.searched path).1 (later.searched path).1 ∧
      (later.searched path).2 = (binding.searched path).2 := by
    unfold Binding.searched
    split
    · exact ⟨VisitedBy.getLast misses.scopes, rfl⟩
    · exact ⟨.cons misses.locals misses.scopes, rfl⟩
  rw [lookup_searched, lookup_searched, isFirmAlong, searched.2]
  exact findNearest_missing searched.1 firm

end Binding

namespace Pass

variable {evaluator : Evaluator} {binding : Binding} {mode : Override}

theorem visitFields_missAs {fields fields' : List (String × Node)}
    (keeps : evaluator.KeepsUnmarked) (place : binding.IsUnmarked) (quiet : mode ≠ .all)
    (ends : visitFields evaluator binding mode .ordinary fields = .ok fields') :
    FieldsMissAs fields fields' := by
  intro key
  rcases visitFields_lookup (.inl rfl) ends with
    ⟨absent, absent'⟩ | ⟨field, field', held, found, visited⟩
  · rw [absent, absent']
    exact .none
  · rw [held, found]
    have below : (binding.withPath key).IsUnmarked := place.of_same rfl rfl
    exact .some (visit_missesAs keeps below quiet visited)

/-- One step of a route on which no merge is pending. -/
theorem visit_descend_misses {node node' child child' : Node} {around later middle : Binding}
    {step : Step} (keeps : evaluator.KeepsUnmarked) (place : binding.IsUnmarked)
    (visited : VisitedIn evaluator binding node node') (unmarked : node.isUnmarked)
    (first : node.descend around step = some (middle, child))
    (found : node'.below? step = some child') (misses : around.MissesAs later) :
    ∃ middle', node'.descend later step = some (middle', child') ∧ middle.MissesAs middle' := by
  rcases visited with ⟨below, mode, quiet, stubs, answers, ends⟩
  rcases Node.descend_cases first with
    ⟨key, fields, annotations, rfl, rfl, _, rfl⟩ | ⟨index, entries, annotations, rfl, rfl, _, rfl⟩
  · have absent : fields.lookup markerKey = none := Option.isNone_iff_eq_none.mp unmarked
    rcases visit_map_ends (markerResolved_of_absent absent) ends with ⟨fields', rfl, visited⟩
    rw [Node.below?_field] at found
    have inner : ((inside below annotations).withScope fields).IsUnmarked :=
      ((place.of_same stubs answers).inside annotations).of_same rfl rfl
    have scope := visitFields_missAs keeps inner (Override.entries_ne_all quiet _) visited
    refine ⟨(later.withScope fields').withPath key, ?_, misses.locals, .cons scope misses.scopes⟩
    simp only [Node.descend, Node.value_mk, found, Option.map_some]
  · rcases visit_list_ends unmarked ends with ⟨entries', rfl, visited⟩
    rw [Node.below?_entry] at found
    refine ⟨later.withPath (stepName index child'), ?_, misses.locals, misses.scopes⟩
    simp only [Node.descend, Node.value_mk, found, Option.map_some]

/-- A pass along a route on which no merge is pending. What is missing from the place at its end
is missing from there after the pass. -/
theorem visit_around {node node' leaf : Node} {around later site : Binding} {route : List Step}
    (keeps : evaluator.KeepsUnmarked) (place : binding.IsUnmarked)
    (visited : VisitedIn evaluator binding node node')
    (unmarked : ∀ above ∈ node.above route, above.isUnmarked)
    (reached : node.reach around route = some (site, leaf)) (misses : around.MissesAs later) :
    ∃ site' leaf', node'.reach later route = some (site', leaf') ∧ site.MissesAs site' := by
  induction route generalizing node node' around later with
  | nil =>
      cases reached
      exact ⟨later, node', rfl, misses⟩
  | cons step route induction =>
      rcases Node.reach_cons reached with ⟨middle, child, first, rest⟩
      have found := Node.below?_of_descend first
      rw [Node.above_cons found, List.forall_mem_cons] at unmarked
      rcases visited.below unmarked.1 found with ⟨child', found', inner⟩
      rcases visit_descend_misses keeps place visited unmarked.1 first found' misses with
        ⟨middle', first', places⟩
      rw [Node.reach_of_descend first']
      exact induction inner unmarked.2 rest places

end Pass

/-! ## Runs -/

namespace Resolution

variable {answers : Answers} {stubs : List Node} {template : Node}

theorem treeAfter_missesAs (place : (root answers stubs).IsUnmarked) {early passes : Nat}
    {before after : Node} (first : treeAfter answers stubs early template = .ok before)
    (last : treeAfter answers stubs (early + passes) template = .ok after) :
    before.MissesAs after := by
  have keeps := Expression.evaluate_preserves Value.withoutMarkers_inherited Expression.callDepth
  induction passes generalizing after with
  | zero =>
      rw [Nat.add_zero, first] at last
      cases last
      exact .refl before
  | succ passes induction =>
      rcases treeAfter_pred last with ⟨document, earlier, pass⟩
      exact (induction earlier).trans
        (Pass.visit_missesAs keeps place Override.expressions_ne_all pass)

theorem treeAfter_around (place : (root answers stubs).IsUnmarked) {early passes : Nat}
    {before after leaf : Node} {route : List Step} {site : Binding}
    (first : treeAfter answers stubs early template = .ok before)
    (last : treeAfter answers stubs (early + passes) template = .ok after)
    (unmarked : ∀ above ∈ before.above route, above.isUnmarked)
    (reached : before.reach (root answers stubs) route = some (site, leaf)) :
    (∀ above ∈ after.above route, above.isUnmarked) ∧
      ∃ site' leaf', after.reach (root answers stubs) route = some (site', leaf') ∧
        ∀ path, site.isFirmAlong path →
          site'.isFirmAlong path ∧ (site'.lookup path = .missing ↔ site.lookup path = .missing) := by
  have keeps := Expression.evaluate_preserves Value.withoutMarkers_inherited Expression.callDepth
  have outermost : (root answers stubs).MissesAs (root answers stubs) := ⟨fun _ => .none, .nil⟩
  induction passes generalizing after with
  | zero =>
      rw [Nat.add_zero, first] at last
      cases last
      exact ⟨unmarked, site, leaf, reached, fun _ firm => ⟨firm, Iff.rfl⟩⟩
  | succ passes induction =>
      rcases treeAfter_pred last with ⟨document, earlier, pass⟩
      rcases induction earlier with ⟨unmarked, middle, node, reached, lookups⟩
      have visited := Pass.VisitedIn.of_visit Override.expressions_ne_all pass
      have around := visited.surroundings unmarked (Node.at?_of_reach reached)
      rcases Pass.visit_around keeps place visited unmarked reached outermost with
        ⟨site', leaf', reached', misses⟩
      refine ⟨around.2 keeps place, site', leaf', reached', fun path firm => ?_⟩
      rcases lookups path firm with ⟨firm, same⟩
      rcases misses.lookup firm with ⟨firm, same'⟩
      exact ⟨firm, same'.trans same⟩

/-- A path with nothing pending on its way exists in every later document or in none: what is
missing then is missing for good. So is what a lookup misses from a place around which no merge
is pending, such as the reference that a fallback gave up. -/
theorem missing_persists (resolved : ∀ stub ∈ stubs, stub.isResolved)
    (outside : answers.Provide fun value => value.withoutMarkers) {early passes : Nat}
    {before after : Node} (first : treeAfter answers stubs early template = .ok before)
    (last : treeAfter answers stubs (early + passes) template = .ok after) :
    (∀ path, before.isFirmAlong path →
      (after.find path = .missing ↔ before.find path = .missing)) ∧
    ∀ route site leaf, before.reach (root answers stubs) route = some (site, leaf) →
      (∀ above ∈ before.above route, above.isUnmarked) →
      ∃ site' leaf', after.reach (root answers stubs) route = some (site', leaf') ∧
        ∀ path, site.isFirmAlong path →
          (site'.lookup path = .missing ↔ site.lookup path = .missing) := by
  have place : (root answers stubs).IsUnmarked :=
    ⟨fun stub member => Node.withoutMarkers_of_isResolved (resolved stub member), outside⟩
  constructor
  · exact fun path firm => (treeAfter_missesAs place first last path firm).2
  · intro route site leaf reached unmarked
    rcases (treeAfter_around place first last unmarked reached).2 with
      ⟨site', leaf', reached', lookups⟩
    exact ⟨site', leaf', reached', fun path firm => (lookups path firm).2⟩

/-- A list of two entries, in which the first one is an expression at first. -/
theorem missing_persists_index :
    let document (entry : Value) : Node := .mk (.map [("z", .mk (.integer 1) {}),
      ("l", .mk (.list [.mk entry {}, .mk .null {}]) {})]) {}
    let template := document (.expression (.reference ["z"]))
    treeAfter .none [] 1 template = .ok (document (.integer 1)) ∧
      template.find ["l", "[2]"] = .missing ∧ (document (.integer 1)).find ["l", "[2]"] = .missing := by
  intro document template
  have run : treeAfter .none [] 1 template = .ok (document (.integer 1)) := rfl
  have outside : Answers.none.Provide fun value => value.withoutMarkers :=
    ⟨(fun known => nomatch known), (fun known => nomatch known), fun known => nomatch known⟩
  have missing : template.find ["l", "[2]"] = .missing := by rfl
  have start : treeAfter .none [] 0 template = .ok template := rfl
  have persists := missing_persists (List.forall_mem_nil _) outside start
    (by rwa [Nat.zero_add] : treeAfter .none [] (0 + 1) template = _)
  exact ⟨run, missing, (persists.1 ["l", "[2]"] (by decide)).mpr missing⟩

/-! An entry of a list whose name is an expression does not have the name yet, and so a lookup
by the name misses it in the first pass. -/

theorem missing_found :
    ¬ ∀ (answers : Answers) (stubs : List Node) (template : Node) (early passes : Nat)
        (before after : Node) (path : List String), (∀ stub ∈ stubs, stub.isResolved) →
      treeAfter answers stubs early template = .ok before → before.find path = .missing →
      treeAfter answers stubs (early + passes) template = .ok after →
      ∀ node, after.find path ≠ .found node := by
  intro claim
  let template : Node := .mk (.map [("l", .mk (.list [.mk (.map
    [("name", .mk (.text "(( \"a\" ))") {}), ("v", .mk (.integer 1) {})]) {}]) {})]) {}
  have missing : template.find ["l", "a", "v"] = .missing := by rfl
  have found : ((treeAfter .none [] 1 template).toOption.bind fun document =>
      (document.find ["l", "a", "v"]).found?).isSome := by decide +kernel
  cases last : treeAfter .none [] 1 template with
  | error pause =>
      rw [last] at found
      cases found
  | ok after =>
      have never := claim .none [] template 0 1 template after _ (List.forall_mem_nil _) rfl missing
        (by rwa [Nat.zero_add])
      rw [last, Except.toOption, Option.bind_some] at found
      cases looked : after.find ["l", "a", "v"] with
      | found node => exact never node looked
      | unresolved | missing =>
          rw [looked] at found
          cases found

end Resolution

end Stencil
