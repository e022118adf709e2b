import Stencil.Proofs.Resolution.Draft

namespace Stencil

/-! A text that is written as an expression: the name of a list entry, say. The first pass gives
it its value, and from then on the document is like one with the text itself. Before that, the
entry goes by another name, and what the first pass decides stays. -/

/-! ## Trees that differ at one position -/

namespace Node

/-- The tree with the child at a step changed. -/
def changedBelow (node : Node) (step : Step) (change : Node → Node) : Node :=
  match step, node.value with
  | .field key, .map fields =>
      node.withValue
        (.map (fields.map fun field => (field.1, if field.1 = key then change field.2 else field.2)))
  | .entry index, .list entries => node.withValue (.list (entries.modify index change))
  | _, _ => node

/-- The tree with another node at a position. -/
def replacedAt (node : Node) (route : List Step) (new : Node) : Node :=
  match route with
  | [] => new
  | step :: route => node.changedBelow step fun child => child.replacedAt route new

theorem lookup_changed {fields : List (String × Node)} (key other : String) (change : Node → Node) :
    (fields.map fun field => (field.1, if field.1 = key then change field.2 else field.2)).lookup
        other =
      (fields.lookup other).map fun field => if other = key then change field else field := by
  induction fields with
  | nil => rfl
  | cons field fields induction =>
      rcases field with ⟨first, here⟩
      rw [List.map_cons, List.lookup_cons, List.lookup_cons]
      cases same : other == first with
      | true =>
          rw [beq_iff_eq.mp same]
          rfl
      | false => exact induction

variable {node child old new : Node} {step : Step} {route : List Step} {change : Node → Node}

theorem annotations_changedBelow : (node.changedBelow step change).annotations = node.annotations := by
  rcases node with ⟨value, annotations⟩
  cases step <;> cases value <;> rfl

theorem below?_changedBelow (found : node.below? step = some child) (other : Step) :
    (node.changedBelow step change).below? other =
      (node.below? other).map fun child => if other = step then change child else child := by
  rcases below?_cases found with
    ⟨key, fields, annotations, rfl, rfl, held⟩ | ⟨index, entries, annotations, rfl, rfl, held⟩
  · cases other with
    | field other =>
        rw [below?_field]
        simp only [changedBelow, value_mk, withValue, below?_field, Step.field.injEq]
        exact lookup_changed key other change
    | entry other => rfl
  · cases other with
    | field other => rfl
    | entry other =>
        rw [below?_entry]
        simp only [changedBelow, value_mk, withValue, below?_entry, Step.entry.injEq]
        rw [List.getElem?_modify, Option.map_eq_map]
        simp only [@eq_comm Nat index other]

theorem replacedAt_cons (found : node.below? step = some child) :
    (node.replacedAt (step :: route) new).below? step = some (child.replacedAt route new) := by
  rw [replacedAt, below?_changedBelow found, found, Option.map_some, if_pos rfl]

theorem replacedAt_other (found : node.below? step = some child) {other : Step}
    (different : other ≠ step) :
    (node.replacedAt (step :: route) new).below? other = node.below? other := by
  rw [replacedAt, below?_changedBelow found]
  simp only [if_neg different, Option.map_id']

theorem at?_replacedAt (found : node.at? route = some old) (new : Node) :
    (node.replacedAt route new).at? route = some new := by
  induction route generalizing node with
  | nil => rfl
  | cons step route induction =>
      rcases at?_cons found with ⟨child, first, rest⟩
      rw [at?_of_below? (replacedAt_cons first)]
      exact induction rest

/-- An expression at another position stays, and so does what a stub may override there. -/
theorem leaf_replacedAt (found : node.at? route = some old) (resolved : old.isLocallyResolved)
    (scalar : ∀ step, old.below? step = none) {other : List Step} {leaf : Node}
    (there : node.at? other = some leaf) (pending : leaf.isLocallyResolved = false) (new : Node)
    (mode : Override) :
    (node.replacedAt route new).at? other = some leaf ∧
      (node.replacedAt route new).modeAlong mode other = node.modeAlong mode other := by
  induction route generalizing node other mode with
  | nil =>
      cases found
      cases other with
      | nil =>
          cases there
          rw [resolved] at pending
          cases pending
      | cons step other =>
          rcases at?_cons there with ⟨child, first, _⟩
          rw [scalar step] at first
          cases first
  | cons step route induction =>
      rcases at?_cons found with ⟨child, first, rest⟩
      cases other with
      | nil =>
          cases there
          rw [isLocallyResolved_of_kind (kind_of_below? first)] at pending
          cases pending
      | cons step' other =>
          rcases at?_cons there with ⟨child', first', rest'⟩
          have annotations : (node.replacedAt (step :: route) new).annotations =
              node.annotations := annotations_changedBelow
          by_cases same : step' = step
          · subst same
            cases first.symm.trans first'
            have below : (node.replacedAt (step' :: route) new).below? step' =
                some (child.replacedAt route new) := replacedAt_cons first
            rw [at?_of_below? below, modeAlong_cons below, modeAlong_cons first,
              annotations]
            exact induction rest rest' _
          · have below : (node.replacedAt (step :: route) new).below? step' = some child' :=
              (replacedAt_other first same).trans first'
            rw [at?_of_below? below, modeAlong_cons below, modeAlong_cons first',
              annotations]
            exact ⟨rest', rfl⟩

theorem map_changed_of_fresh {fields : List (String × Node)} {key : String}
    (fresh : fields.lookup key = none) (change : Node → Node) :
    (fields.map fun field => (field.1, if field.1 = key then change field.2 else field.2)) =
      fields := by
  induction fields with
  | nil => rfl
  | cons field fields induction =>
      rcases field with ⟨first, here⟩
      rw [List.lookup_cons] at fresh
      cases same : key == first with
      | true =>
          rw [same] at fresh
          cases fresh
      | false =>
          rw [same] at fresh
          have different : first ≠ key := fun equal => (beq_eq_false_iff_ne.mp same) equal.symm
          rw [List.map_cons, induction fresh, if_neg different]

theorem fieldsWithin_changed {fields laters : List (String × Node)} {key : String}
    {later : Node} (change : Node → Node) (distinct : fieldsDistinct fields)
    (within : List.Forall₂ (fun field later => field.1 = later.1 ∧ field.2.Within later.2)
      (fields.map fun field => (field.1, if field.1 = key then change field.2 else field.2)) laters)
    (found : fields.lookup key = some child) (found' : laters.lookup key = some later)
    (here : child.Within later) :
    List.Forall₂ (fun field later => field.1 = later.1 ∧ field.2.Within later.2) fields laters := by
  induction fields generalizing laters with
  | nil => cases found
  | cons field fields induction =>
      rcases field with ⟨first, field⟩
      rcases fieldsDistinct_cons.mp distinct with ⟨fresh, _, others⟩
      rw [List.map_cons, List.forall₂_cons_left_iff] at within
      rcases within with ⟨⟨_, other⟩, laters, ⟨⟨⟩, head⟩, tail, rfl⟩
      by_cases same : first = key
      · subst same
        rw [List.lookup_cons_self] at found found'
        cases found
        cases found'
        rw [map_changed_of_fresh fresh] at tail
        exact .cons ⟨rfl, here⟩ tail
      · have different : (key == first) = false := beq_eq_false_iff_ne.mpr (Ne.symm same)
        rw [List.lookup_cons, different] at found found'
        rw [if_neg same] at head
        exact .cons ⟨rfl, head⟩ (induction others tail found found')

theorem entriesWithin_changed {entries laters : List Node} {index : Nat} {later : Node}
    (change : Node → Node) (within : List.Forall₂ Within (entries.modify index change) laters)
    (found : entries[index]? = some child) (found' : laters[index]? = some later)
    (here : child.Within later) : List.Forall₂ Within entries laters := by
  induction entries generalizing laters index with
  | nil => cases found
  | cons entry entries induction =>
      cases index with
      | zero =>
          rw [List.modify_zero_cons, List.forall₂_cons_left_iff] at within
          rcases within with ⟨other, laters, _, tail, rfl⟩
          cases found
          cases found'
          exact .cons here tail
      | succ index =>
          rw [List.modify_succ_cons, List.forall₂_cons_left_iff] at within
          rcases within with ⟨other, laters, head, tail, rfl⟩
          rw [List.getElem?_cons_succ] at found found'
          exact .cons head (induction tail found found')

/-- What has all of the changed tree, and at the position what was there before, has all of the
tree. -/
theorem within_of_replacedAt {later held : Node} (distinct : node.keysDistinct)
    (within : (node.replacedAt route new).Within later) (found : node.at? route = some old)
    (found' : later.at? route = some held) (here : old.Within held) : node.Within later := by
  induction route generalizing node later with
  | nil =>
      cases found
      cases found'
      exact here
  | cons step route induction =>
      rcases at?_cons found with ⟨child, first, rest⟩
      rcases at?_cons found' with ⟨child', first', rest'⟩
      rcases Node.RefinedBy.below? within (replacedAt_cons first) with ⟨other, first'', children⟩
      cases first'.symm.trans first''
      rcases below?_cases first with
        ⟨key, fields, annotations, rfl, rfl, held⟩ | ⟨index, entries, annotations, rfl, rfl, held⟩
      · have below := induction (member_of_fieldsDistinct distinct _ (member_of_lookup held))
          children rest rest'
        have within : (Node.mk (.map (fields.map fun field => (field.1,
            if field.1 = key then field.2.replacedAt route new else field.2))) annotations).Within
              later := within
        rcases within.map with ⟨laters, annotations', rfl, fieldsWithin⟩
        rw [below?_field] at first'
        exact congruent_within.map (fieldsWithin_changed (fun field => field.replacedAt route new)
          distinct fieldsWithin held first' below)
      · have below := induction (entriesDistinct_iff.mp distinct _ (List.mem_of_getElem? held))
          children rest rest'
        have within : (Node.mk (.list (entries.modify index fun entry =>
            entry.replacedAt route new)) annotations).Within later := within
        rcases within.list with ⟨laters, annotations', rfl, entriesWithin⟩
        rw [below?_entry] at first'
        exact congruent_within.list (entriesWithin_changed (fun entry => entry.replacedAt route new)
          entriesWithin held first' below)

end Node

/-! ## Texts written as expressions -/

/-- The text as an expression, such as `(( "a" ))` for `a`. -/
def Node.quoted (text : String) (annotations : Annotations) : Node :=
  .mk (.text (Expression.text text).printEmbedded) annotations

example : (Node.quoted "a" {}).value.text? = some "(( \"a\" ))" := by decide

theorem Node.expression?_quoted (text : String) (annotations : Annotations) (place : List String) :
    (Node.quoted text annotations).expression? place = some (.ok (.text text)) := by
  have legible : (Expression.text text).IsLegible := trivial
  have parses : Expression.parse (Expression.text text).print place = .ok (.text text) :=
    Expression.parse_print_of_isLayered legible (.inr fun looks => nomatch looks.1) trivial
  rw [quoted, expression?, value_mk]
  simp only [Expression.embedded?_printEmbedded legible, Option.map_some, parses]

theorem Node.holds_quoted {text : String} {annotations : Annotations}
    (simple : (Node.quoted text annotations).isSimple) :
    (Node.quoted text annotations).Holds (.text text) annotations.preferred := by
  have unresolved := not_resolved_of_expression (expression?_quoted text annotations [])
  rcases holds_of_simple simple unresolved with ⟨expression, held⟩
  have same := held.holds []
  rw [expression?_quoted] at same
  cases same
  exact held

namespace Resolution

variable {answers : Answers} {stubs : List Node} {template document first : Node}
  {route : List Step} {site : Binding} {text : String} {annotations annotations' : Annotations}

/-- The first pass over the expression leaves the text. -/
theorem run_quoted (plain : ∀ stub ∈ stubs, stub.isPlain) (simple : document.isSimple)
    (position : document.reach (root answers stubs) route =
      some (site, Node.quoted text annotations))
    (alone : ∀ stub ∈ stubs, (stub.find site.path).found? = none)
    (pass : Pass.run answers stubs document = .ok first) :
    ∃ held, first.at? route = some held ∧ held.value = .text text := by
  have held := Node.holds_quoted (Node.isSimple_of_at? simple (Node.at?_of_reach position))
  rcases Pass.visit_reach (root_simple plain) Override.expressions_ne_all simple pass position
      held.not_resolved
    with ⟨place, _, _, _, node, visited, stands⟩
  refine ⟨node, stands, ?_⟩
  have free : site.findInStubs? site.stubPath = none := by
    rw [place.stubPath, Node.findInStubs?_of_reach position]
    exact List.findSome?_eq_none_iff.mpr alone
  have kept : Pass.stubFor? (Node.quoted text annotations)
      (site.withSource (Node.quoted text annotations).source)
        (document.modeAlong .expressions route) = none := by
    rw [Pass.stubFor?_of_expression (held.holds _) held.direct]
    exact ite_eq_right_iff.mpr fun _ => free
  rcases Pass.visit_outcome (held.holds _) kept visited with ⟨outcome, evaluated, rfl⟩
  cases Except.ok.inj evaluated
  rfl

/-- Lists stay settled where trees are filled in by what has settled lists. -/
theorem congruent_settled : Congruent fun node later =>
    node.listsSettled → node.Within later → later.listsSettled where
  same same settled _ := by
    rwa [← Node.listsSettled_masked .contents, ← same, Node.listsSettled_masked]
  list {firsts seconds annotations annotations'} entries whole around := by
    have settled : entriesSettled firsts := whole
    have within := entriesWithin_iff.mp (Node.RefinedBy.inner around rfl).2
    clear whole around
    show entriesSettled seconds
    induction entries with
    | nil => rfl
    | cons here _ others =>
        rw [entriesSettled, Bool.and_eq_true, Bool.and_eq_true] at settled ⊢
        rw [List.forall₂_cons] at within
        refine ⟨⟨?_, here settled.1.2 within.1⟩, others settled.2 within.2⟩
        have entry := Node.RefinedBy.isSettledEntry within.1 (by
          rw [Node.isSettledEntry_masked]
          exact settled.1.1)
        rwa [Node.isSettledEntry_masked] at entry
  map {firsts seconds annotations annotations'} fields whole around := by
    have settled : fieldsSettled firsts := whole
    have within := fieldsWithin_iff.mp (Node.RefinedBy.inner around rfl).2
    clear whole around
    show fieldsSettled seconds
    induction fields with
    | nil => rfl
    | cons here _ others =>
        rw [fieldsSettled, Bool.and_eq_true] at settled ⊢
        rw [List.forall₂_cons] at within
        exact ⟨here.2 settled.1 within.1.2, others settled.2 within.2⟩

variable {literal : Node}

/-- After the first pass over a template with an expression in the place of a text the document is
a draft of the template itself. -/
theorem isDraft_of_quoted (plain : ∀ stub ∈ stubs, stub.isPlain) (distinct : template.keysDistinct)
    (elementary : template.isElementary [])
    (found : template.at? route = some (.mk (.text text) annotations))
    (simple : (template.replacedAt route (.quoted text annotations')).isSimple)
    (position : (template.replacedAt route (.quoted text annotations')).reach (root answers stubs)
      route = some (site, .quoted text annotations'))
    (alone : ∀ stub ∈ stubs, (stub.find site.path).found? = none)
    (pass : Pass.run answers stubs (template.replacedAt route (.quoted text annotations')) =
      .ok first) : IsDraft template first := by
  have held := Node.holds_quoted (Node.isSimple_of_at? simple (Node.at?_of_reach position))
  have yields := run_simple plain simple pass
  rcases run_quoted plain simple position alone pass with ⟨named, atName, name⟩
  have within : template.Within first :=
    Node.within_of_replacedAt distinct (.of_refined yields.refined) found atName
      (.of_same (Node.masked_contents_congr name).symm)
  -- Elsewhere the expressions are those of the template.
  have leaves {other : List Step} {leaf : Node} {expression : Expression} {preferred : Bool}
      (there : template.at? other = some leaf) (holds : leaf.Holds expression preferred) :
      ∃ node, first.at? other = some node ∧ (node.isResolved ∨ node.Holds expression preferred ∧
        first.modeAlong .expressions other = template.modeAlong .expressions other) := by
    have resolved : (Node.mk (.text text) annotations).isLocallyResolved := by
      have unopened : Text.isUnopened text := held.elementary
      simp [Node.isLocallyResolved, Value.isLocallyResolved,
        Text.embedded?_of_isUnopened unopened]
    have scalar (step : Step) : (Node.mk (.text text) annotations).below? step = none := by
      cases step <;> rfl
    rcases Node.leaf_replacedAt found resolved scalar there holds.unresolved
        (.quoted text annotations') .expressions
      with ⟨there', modes⟩
    rcases Node.reach_of_at? there' (root answers stubs) with ⟨site', reached⟩
    rcases Pass.visit_reach (root_simple plain) Override.expressions_ne_all simple pass reached
        holds.not_resolved
      with ⟨place, _, modes', _, node, visited, stands⟩
    refine ⟨node, stands, ?_⟩
    rcases Pass.visit_holds (Expression.evaluate_plain _) place holds visited with
      whole | ⟨still, _⟩
    · exact .inl (Node.isResolved_of_isPlain whole)
    · exact .inr ⟨still, modes'.trans modes⟩
  have start := Node.isElementary_iff.mp elementary
  refine ⟨Node.isElementary_iff.mpr ⟨yields.simple, ?_⟩, within, leaves⟩
  refine congruent_settled.lift template distinct (.of_same rfl) within ?_ start.2 within
  intro other leaf there unresolved
  rcases Node.holds_of_simple (Node.isSimple_of_at? start.1 there) unresolved with
    ⟨expression, holds⟩
  rcases leaves there holds with ⟨node, after, status⟩
  refine ⟨leaf, node, there, after, fun _ _ => ?_⟩
  rcases status with whole | ⟨still, _⟩
  · exact Node.listsSettled_of_isResolved whole
  · exact still.listsSettled

theorem Settled.ends {resolution : Resolution} {last : Node}
    (settled : Settled answers stubs template resolution last) :
    Ends answers stubs template last resolution.document :=
  ⟨⟨_, settled.reached⟩, settled.pass, settled.same⟩

/-- A first pass that changes something is not the last one. -/
theorem Settled.ends_first {resolution : Resolution} {last : Node}
    (settled : Settled answers stubs template resolution last)
    (pass : Pass.run answers stubs template = .ok first) (changed : ¬ first.same template) :
    Ends answers stubs first last resolution.document := by
  have reached := settled.reached
  cases early : resolution.passes - 1 with
  | zero =>
      rw [early] at reached
      cases reached
      cases pass.symm.trans settled.pass
      exact absurd settled.same changed
  | succ early =>
      rw [early] at reached
      rcases treeAfter_first reached with ⟨first', pass', others⟩
      cases pass.symm.trans pass'
      exact ⟨⟨_, others⟩, settled.pass, settled.same⟩

/-- A text of an elementary template, such as the name of a list entry, is written as an
expression at a place that no stub has. After the first pass the text is there. The result is the
same as for the text itself if and only if the first pass has decided nothing that is not in that
result: no stub, fallback or sum found in it what belongs to another name. -/
theorem quoted_result_iff {limit limit' : Nat} {resolution resolution' : Resolution}
    (plain : ∀ stub ∈ stubs, stub.isPlain) (distinct : template.keysDistinct)
    (elementary : template.isElementary [])
    (found : template.at? route = some (.mk (.text text) annotations))
    (simple : (template.replacedAt route (.quoted text annotations')).isSimple)
    (position : (template.replacedAt route (.quoted text annotations')).reach (root answers stubs)
      route = some (site, .quoted text annotations'))
    (alone : ∀ stub ∈ stubs, (stub.find site.path).found? = none)
    (result : partly answers limit stubs template = .ok (.ok resolution))
    (result' : partly answers limit' stubs (template.replacedAt route (.quoted text annotations')) =
      .ok (.ok resolution')) :
    ∃ first held,
      Pass.run answers stubs (template.replacedAt route (.quoted text annotations')) = .ok first ∧
        first.at? route = some held ∧ held.value = .text text ∧
        (resolution'.document.masked .contents = resolution.document.masked .contents ↔
          first.Within resolution.document) := by
  rcases settled_of_partly result with ⟨last, settled⟩
  rcases settled_of_partly result' with ⟨last', settled'⟩
  have final := settled'.final
  rw [← Nat.sub_add_cancel settled'.passes] at final
  rcases treeAfter_first final with ⟨first, pass, _⟩
  rcases run_quoted plain simple position alone pass with ⟨held, atName, name⟩
  refine ⟨first, held, pass, atName, name, ?_⟩
  have quoted := Node.holds_quoted (Node.isSimple_of_at? simple (Node.at?_of_reach position))
  have changed : ¬ first.same (template.replacedAt route (.quoted text annotations')) := by
    intro same
    rcases Node.same_at? same atName with ⟨before, atQuoted, equal⟩
    cases (Node.at?_of_reach position).symm.trans atQuoted
    have unopened : Text.isUnopened text := quoted.elementary
    have resolved : held.isLocallyResolved := by
      simp [Node.isLocallyResolved, name, Value.isLocallyResolved,
        Text.embedded?_of_isUnopened unopened]
    have pending := quoted.unresolved
    rw [Node.isLocallyResolved_of_same equal resolved] at pending
    cases pending
  have draft := isDraft_of_quoted plain distinct elementary found simple position alone pass
  exact draft.result_iff plain distinct elementary settled.ends (settled'.ends_first pass changed)

/-- A reference without a fallback waits for the name. -/
theorem quoted_result_iff_reference :
    let document (name : Node) : Node := .mk (.map [("l", .mk (.list [.mk (.map [("name", name),
      ("v", .mk (.integer 1) {})]) {}]) {}), ("x", .mk (.expression (.reference ["l", "a", "v"])) {})])
      {}
    ∃ resolution resolution' first held,
      partly .none 4 [] (document (.mk (.text "a") {})) = .ok (.ok resolution) ∧
        partly .none 4 [] (document (.quoted "a" {})) = .ok (.ok resolution') ∧
        Pass.run .none [] (document (.quoted "a" {})) = .ok first ∧
        first.at? [.field "l", .entry 0, .field "name"] = some held ∧ held.value = .text "a" ∧
        (resolution'.document.masked .contents = resolution.document.masked .contents ↔
          first.Within resolution.document) := by
  intro document
  obtain ⟨resolution, result⟩ : ∃ resolution,
      found? (partly .none 4 [] (document (.mk (.text "a") {}))) = some resolution :=
    Option.isSome_iff_exists.mp (by decide +kernel)
  obtain ⟨resolution', result'⟩ : ∃ resolution,
      found? (partly .none 4 [] (document (.quoted "a" {}))) = some resolution :=
    Option.isSome_iff_exists.mp (by decide +kernel)
  rw [found?_eq_some_iff] at result result'
  let route : List Step := [.field "l", .entry 0, .field "name"]
  have quoted : (document (.mk (.text "a") {})).replacedAt route (.quoted "a" {}) =
      document (.quoted "a" {}) := rfl
  have there : (document (.quoted "a" {})).at? route = some (.quoted "a" {}) := rfl
  rcases Node.reach_of_at? there (root .none []) with ⟨site, position⟩
  rw [← quoted] at position result' ⊢
  rcases quoted_result_iff (List.forall_mem_nil _) (by decide +kernel) (by decide +kernel)
      rfl (by decide +kernel) position (List.forall_mem_nil _) result result'
    with ⟨first, held, rest⟩
  exact ⟨resolution, resolution', first, held, result, result', rest⟩

/-- Where a stub has something for the name, an expression that merges has given up before the
name is there. -/
theorem quoted_unmerged :
    ¬ ∀ (answers : Answers) (limit : Nat) (stubs : List Node) (template : Node)
        (route : List Step) (index : Nat) (name : String) (annotations : Annotations)
        (resolution resolution' : Resolution),
      name ≠ "" → (∀ character ∈ name.toList, character.isAlpha) →
      template.at? (route ++ [.entry index, .field "name"]) =
        some (.mk (.text name) annotations) →
      partly answers limit stubs template = .ok (.ok resolution) →
      partly answers limit stubs (template.replacedAt (route ++ [.entry index, .field "name"])
        (.quoted name annotations)) = .ok (.ok resolution') →
      (resolution'.document == resolution.document) = true := by
  intro claim
  let entries (value : Value) : Node := .mk (.map [("l", .mk (.list [.mk (.map [
    ("name", .mk (.text "a") {}), ("v", .mk value {})]) {}]) {})]) {}
  let template : Node := entries (.text "(( merge || 5 ))")
  let quoted : Node := template.replacedAt ([.field "l"] ++ [.entry 0, .field "name"])
    (.quoted "a" {})
  let resolve (document : Node) : Option Resolution :=
    found? (partly .none 1024 [entries (.integer 2)] document)
  have differ : ((resolve template).bind fun resolution => (resolve quoted).map fun resolution' =>
      resolution'.document == resolution.document) = some false := by decide +kernel
  rcases Option.bind_eq_some_iff.mp differ with ⟨resolution, result, differ⟩
  rcases Option.map_eq_some_iff.mp differ with ⟨resolution', result', differ⟩
  have same := claim .none 1024 [entries (.integer 2)] template [.field "l"] 0 "a" {} resolution
    resolution' (by decide) (List.all_eq_true.mp (by decide)) rfl (found?_eq_some_iff.mp result)
    (found?_eq_some_iff.mp result')
  rw [same] at differ
  cases differ

end Resolution

end Stencil
