import Stencil.Proofs.Resolution.Visit

namespace Stencil

/-! What comes of the markers of a collection, one case for each thing that a pass can do
about one. -/

/-- What a marker that stays may be afterwards: the same with an issue, or the expression
that was read from its text. -/
inductive Marker.Stays (path : List String) (marker : Node) : Node → Prop where
  | noted (issue : Issue) (unresolved : marker.isLocallyResolved = false) :
      Stays path marker (marker.withIssue (some issue))
  | evaluated {expression : Expression} (issue : Option Issue)
      (holds : marker.expression? path = some (.ok expression)) :
      Stays path marker ((marker.withValue (.expression expression)).withIssue issue)

/-- The expression of a marker has this value. -/
def Marker.Brings (evaluator : Evaluator) (binding : Binding) (marker : Node) (value : Value)
    (report : Report) : Prop :=
  ∃ expression base, marker.expression? binding.path = some (.ok expression) ∧
    evaluator binding expression = .ok (.value base report) ∧ base.value = value

variable {evaluator : Evaluator} {binding : Binding}

theorem Marker.Brings.unresolved {marker : Node} {value : Value} {report : Report}
    (brings : Brings evaluator binding marker value report) :
    marker.isLocallyResolved = false := by
  rcases brings with ⟨expression, base, holds, _⟩
  exact Node.not_resolved_of_expression holds

/-- A marker is no expression, goes away, stays, or brings in a value. -/
theorem Marker.evaluate_cases {marker : Node} {result : Marker}
    (ends : evaluate evaluator binding marker = .ok result) :
    (result = .literal ∧ marker.isLocallyResolved) ∨
      (result = .drop ∧ marker.isLocallyResolved = false) ∨
      (∃ kept, result = .keep kept ∧ Stays binding.path marker kept) ∨
      ∃ base report, result = .merge base report.redirect report.replace ∧
        Brings evaluator binding marker base.value report := by
  unfold evaluate at ends
  cases holds : marker.expression? binding.path with
  | none =>
      rw [holds] at ends
      cases ends
      exact .inl ⟨rfl, Node.expression?_eq_none_iff.mp holds⟩
  | some found =>
      have unresolved := Node.not_resolved_of_expression holds
      rw [holds] at ends
      cases found with
      | error issue =>
          cases ends
          exact .inr (.inr (.inl ⟨_, rfl, .noted issue unresolved⟩))
      | ok expression =>
          rcases ok_of_bind ends with ⟨outcome, evaluated, ends⟩
          cases ends
          cases outcome with
          | value base report =>
              exact .inr (.inr (.inr ⟨base, report, rfl, ⟨expression, base, holds, evaluated, rfl⟩⟩))
          | deferred report => exact .inr (.inr (.inl ⟨_, rfl, .evaluated _ holds⟩))
          | failed report =>
              rw [ofOutcome]
              split
              · exact .inr (.inl ⟨rfl, unresolved⟩)
              · exact .inr (.inr (.inl ⟨_, rfl, .evaluated _ holds⟩))

/-! ## Maps -/

inductive MapPlan.Follows (evaluator : Evaluator) (binding : Binding)
    (fields : List (String × Node)) : MapPlan → Prop where
  | ordinary (resolved : markerResolved fields) :
      Follows evaluator binding fields (.fields .ordinary none none)
  | dropped {marker : Node} (held : fields.lookup markerKey = some marker)
      (unresolved : marker.isLocallyResolved = false) :
      Follows evaluator binding fields (.fields .dropped none none)
  | kept {marker kept : Node} (held : fields.lookup markerKey = some marker)
      (stays : Marker.Stays binding.path marker kept) :
      Follows evaluator binding fields (.fields (.kept kept) none none)
  | merged {marker : Node} {base : List (String × Node)} {report : Report}
      (held : fields.lookup markerKey = some marker)
      (brings : Marker.Brings evaluator binding marker (.map base) report) :
      Follows evaluator binding fields (.fields .dropped report.redirect (some base))
  | replaced {marker : Node} {base : List (String × Node)} {report : Report}
      (held : fields.lookup markerKey = some marker)
      (brings : Marker.Brings evaluator binding marker (.map base) report) :
      Follows evaluator binding fields (.replaced base report.redirect)

theorem MapPlan.ofFields_follows {fields : List (String × Node)} {plan : MapPlan}
    (ends : ofFields evaluator binding fields = .ok plan) :
    Follows evaluator binding fields plan := by
  unfold ofFields at ends
  cases held : fields.lookup markerKey with
  | none =>
      rw [held] at ends
      cases ends
      refine .ordinary ?_
      unfold markerResolved
      rw [held]
      rfl
  | some marker =>
      rw [held] at ends
      rcases ok_of_bind ends with ⟨result, evaluated, ends⟩
      cases ends
      rcases Marker.evaluate_cases evaluated with ⟨rfl, resolved⟩ | ⟨rfl, unresolved⟩ |
        ⟨kept, rfl, stays⟩ | ⟨base, report, rfl, brings⟩
      · refine .ordinary ?_
        unfold markerResolved
        rw [held]
        exact resolved
      · exact .dropped held unresolved
      · exact .kept held stays
      · simp only [ofMarker]
        split
        · rename_i entries same
          rw [same] at brings
          split
          · exact .replaced held brings
          · exact .merged held brings
        · exact .kept held (.noted _ brings.unresolved)

def FieldMarker.kept? : FieldMarker → Option Node
  | .kept marker => some marker
  | _ => none

namespace MapPlan

theorem addBase_lookup {fields : List (String × Node)} {key : String} {field : Node}
    (found : fields.lookup key = some field) (base : Option (List (String × Node))) :
    (addBase fields base).lookup key = some field := by
  cases base with
  | none => exact found
  | some base =>
      unfold addBase
      rw [List.lookup_append, found]
      rfl

/-- A base brings no marker. -/
theorem addBase_marker (fields : List (String × Node)) (base : Option (List (String × Node))) :
    (addBase fields base).lookup markerKey = fields.lookup markerKey := by
  cases base with
  | none => rfl
  | some base =>
      unfold addBase
      have none : ∀ test : String × Node → Bool, (∀ entry, test entry → entry.1 ≠ markerKey) →
          (base.filter test).lookup markerKey = none := by
        intro test others
        rw [List.lookup_eq_none_iff]
        intro entry member
        have different := others entry (List.mem_filter.mp member).2
        simpa using different.symm
      rw [List.lookup_append, none, Option.or_none]
      intro entry holds
      rw [Bool.and_eq_true, bne_iff_ne] at holds
      exact holds.1

end MapPlan

/-! ## Lists -/

/-- One step for each entry, and whether one of them merges. -/
inductive EntriesFollow (evaluator : Evaluator) (binding : Binding) (names : List String) :
    List Node → List EntryStep → Bool → Prop where
  | nil : EntriesFollow evaluator binding names [] [] false
  | visit {entry : Node} {entries : List Node} {steps : List EntryStep} {merged : Bool}
      (resolved : (listMarker? entry).all Node.isLocallyResolved)
      (rest : EntriesFollow evaluator binding names entries steps merged) :
      EntriesFollow evaluator binding names (entry :: entries) (.visit :: steps) merged
  | dropped {entry marker : Node} {entries : List Node} {steps : List EntryStep} {merged : Bool}
      (held : listMarker? entry = some marker) (unresolved : marker.isLocallyResolved = false)
      (rest : EntriesFollow evaluator binding names entries steps merged) :
      EntriesFollow evaluator binding names (entry :: entries) (.splice [] :: steps) merged
  | kept {entry marker kept : Node} {entries : List Node} {steps : List EntryStep} {merged : Bool}
      (held : listMarker? entry = some marker) (stays : Marker.Stays binding.path marker kept)
      (rest : EntriesFollow evaluator binding names entries steps merged) :
      EntriesFollow evaluator binding names (entry :: entries)
        (ListPlan.keptEntry entry kept :: steps) merged
  | merged {entry marker : Node} {added entries : List Node} {report : Report}
      {steps : List EntryStep} {merged : Bool} {path : List String}
      (held : listMarker? entry = some marker)
      (brings : Marker.Brings evaluator (binding.withStubPath path) marker (.list added) report)
      (rest : EntriesFollow evaluator binding names entries steps merged) :
      EntriesFollow evaluator binding names (entry :: entries)
        (.splice (newEntries names added) :: steps) true

inductive ListPlan.Follows (evaluator : Evaluator) (binding : Binding) (names : List String)
    (entries : List Node) (before : Bool) : ListPlan → Prop where
  | entries {steps : List EntryStep} {merged : Bool} (path : List String)
      (redirect : Option (List String))
      (each : EntriesFollow evaluator binding names entries steps merged) :
      Follows evaluator binding names entries before
        (.entries steps (binding.withStubPath path) redirect (before || merged))
  | replaced {entry marker : Node} {added : List Node} {report : Report} {path : List String}
      (member : entry ∈ entries) (held : listMarker? entry = some marker)
      (brings : Marker.Brings evaluator (binding.withStubPath path) marker (.list added) report) :
      Follows evaluator binding names entries before (.replaced added report.redirect)

namespace ListPlan

/-- One step more, for an entry before the others. -/
theorem Follows.cons {names : List String} {entry : Node} {entries : List Node} {before : Bool}
    {step : EntryStep} {rest : ListPlan} (follows : Follows evaluator binding names entries before rest)
    (each : ∀ {steps merged}, EntriesFollow evaluator binding names entries steps merged →
      EntriesFollow evaluator binding names (entry :: entries) (step :: steps) merged) :
    Follows evaluator binding names (entry :: entries) before (rest.addStep step) := by
  cases follows with
  | entries path redirect others => exact .entries path redirect (each others)
  | replaced member held brings => exact .replaced (List.mem_cons_of_mem _ member) held brings

theorem Follows.consMerged {names : List String} {entry marker : Node} {added entries : List Node}
    {before : Bool} {path : List String} {report : Report} {rest : ListPlan}
    (follows : Follows evaluator binding names entries true rest)
    (held : listMarker? entry = some marker)
    (brings : Marker.Brings evaluator (binding.withStubPath path) marker (.list added) report) :
    Follows evaluator binding names (entry :: entries) before
      (rest.addStep (.splice (newEntries names added))) := by
  cases follows with
  | @entries steps merged path redirect others =>
      have all : Follows evaluator binding names (entry :: entries) before
          (.entries (.splice (newEntries names added) :: steps) (binding.withStubPath path) redirect
            (before || true)) :=
        .entries path redirect (.merged held brings others)
      rwa [Bool.or_true] at all
  | replaced member held brings => exact .replaced (List.mem_cons_of_mem _ member) held brings

theorem ofEntries_follows {names : List String} {entries : List Node} (path : List String)
    {redirect : Option (List String)} {before : Bool} {plan : ListPlan}
    (ends : ofEntries evaluator names (binding.withStubPath path) redirect before entries =
      .ok plan) :
    Follows evaluator binding names entries before plan := by
  induction entries generalizing path redirect before plan with
  | nil =>
      cases ends
      have none : Follows evaluator binding names [] before
          (.entries [] (binding.withStubPath path) redirect (before || false)) :=
        .entries path redirect .nil
      rwa [Bool.or_false] at none
  | cons entry entries induction =>
      unfold ofEntries at ends
      cases held : listMarker? entry with
      | none =>
          rw [held] at ends
          rcases ok_of_bind ends with ⟨rest, others, ends⟩
          cases ends
          exact (induction path others).cons (.visit (by rw [held]; rfl))
      | some marker =>
          rw [held] at ends
          rcases ok_of_bind ends with ⟨result, evaluated, ends⟩
          rcases Marker.evaluate_cases evaluated with ⟨rfl, resolved⟩ | ⟨rfl, unresolved⟩ |
            ⟨kept, rfl, stays⟩ | ⟨base, report, rfl, brings⟩
          · rcases ok_of_bind ends with ⟨rest, others, ends⟩
            cases ends
            exact (induction path others).cons (.visit (by rw [held]; exact resolved))
          · rcases ok_of_bind ends with ⟨rest, others, ends⟩
            cases ends
            exact (induction path others).cons (.dropped held unresolved)
          · rcases ok_of_bind ends with ⟨rest, others, ends⟩
            cases ends
            exact (induction path others).cons (.kept held stays)
          · simp only at ends
            split at ends
            · rename_i added same
              rw [same] at brings
              split at ends
              · cases ends
                exact .replaced List.mem_cons_self held brings
              · rcases ok_of_bind ends with ⟨rest, others, ends⟩
                cases ends
                have later : Follows evaluator binding names entries true rest := by
                  cases moved : report.redirect with
                  | none =>
                      rw [moved] at others
                      exact induction path others
                  | some path' =>
                      rw [moved] at others
                      exact induction path' others
                exact later.consMerged held brings
            · rcases ok_of_bind ends with ⟨rest, others, ends⟩
              cases ends
              exact (induction path others).cons (.kept held (.noted _ brings.unresolved))

/-- What the first entry does to the plan: it replaces the whole list, it merges and the other
entries are planned where its redirect leads, or it has a step of its own only. -/
inductive Begins (evaluator : Evaluator) (names : List String) (binding : Binding)
    (redirect : Option (List String)) (merged : Bool) (entry : Node) (entries : List Node) :
    ListPlan → Prop where
  | replaced {marker : Node} {added : List Node} {annotations : Annotations}
      {moved : Option (List String)} (held : listMarker? entry = some marker)
      (evaluated : Marker.evaluate evaluator binding marker =
        .ok (.merge (.mk (.list added) annotations) moved true)) :
      Begins evaluator names binding redirect merged entry entries (.replaced added moved)
  | merged {marker : Node} {added : List Node} {annotations : Annotations}
      {moved : Option (List String)} {rest : ListPlan} (held : listMarker? entry = some marker)
      (evaluated : Marker.evaluate evaluator binding marker =
        .ok (.merge (.mk (.list added) annotations) moved false))
      (others : ofEntries evaluator names (Pass.followRedirect binding moved) (redirect <|> moved)
        true entries = .ok rest) :
      Begins evaluator names binding redirect merged entry entries
        (rest.addStep (.splice (newEntries names added)))
  | unmerged {rest : ListPlan} (step : EntryStep)
      (plain : ∀ marker added annotations moved replace, listMarker? entry = some marker →
        Marker.evaluate evaluator binding marker ≠
          .ok (.merge (.mk (.list added) annotations) moved replace))
      (others : ofEntries evaluator names binding redirect merged entries = .ok rest) :
      Begins evaluator names binding redirect merged entry entries (rest.addStep step)

theorem ofEntries_begins {names : List String} {redirect : Option (List String)} {merged : Bool}
    {entry : Node} {entries : List Node} {plan : ListPlan}
    (ends : ofEntries evaluator names binding redirect merged (entry :: entries) = .ok plan) :
    Begins evaluator names binding redirect merged entry entries plan := by
  unfold ofEntries at ends
  cases held : listMarker? entry with
  | none =>
      rw [held] at ends
      rcases ok_of_bind ends with ⟨rest, others, same⟩
      cases same
      exact .unmerged _ (fun _ _ _ _ _ found => by cases held.symm.trans found) others
  | some marker =>
      rw [held] at ends
      rcases ok_of_bind ends with ⟨result, evaluated, ends⟩
      have only : ∀ {marker' : Node} {other : Marker}, listMarker? entry = some marker' →
          Marker.evaluate evaluator binding marker' = .ok other → result = other := by
        intro marker' other found same
        cases held.symm.trans found
        exact Except.ok.inj (evaluated.symm.trans same)
      cases result with
      | literal | drop | keep kept =>
          rcases ok_of_bind ends with ⟨rest, others, same⟩
          cases same
          exact .unmerged _ (fun _ _ _ _ _ found same => by cases only found same) others
      | merge base moved replace =>
          rcases base with ⟨value, annotations⟩
          cases value with
          | list added =>
              cases replace with
              | true =>
                  cases ends
                  exact .replaced held evaluated
              | false =>
                  rcases ok_of_bind ends with ⟨rest, others, same⟩
                  cases same
                  refine .merged held evaluated ?_
                  cases moved <;> exact others
          | _ =>
              rcases ok_of_bind ends with ⟨rest, others, same⟩
              cases same
              exact .unmerged _ (fun _ _ _ _ _ found same => by cases only found same) others

theorem addStep_replaced {step : EntryStep} {plan : ListPlan} {added : List Node}
    {redirect : Option (List String)} (whole : plan.addStep step = .replaced added redirect) :
    plan = .replaced added redirect := by
  cases plan with
  | replaced others path => exact whole
  | entries steps place path merged => cases whole

theorem addStep_entries {step : EntryStep} {plan : ListPlan} {steps : List EntryStep}
    {place : Binding} {redirect : Option (List String)} {merged : Bool}
    (whole : plan.addStep step = .entries steps place redirect merged) :
    ∃ others, plan = .entries others place redirect merged := by
  cases plan with
  | replaced added path => cases whole
  | entries others place path merged =>
      cases whole
      exact ⟨others, rfl⟩

end ListPlan

/-! ## Visits of collections -/

namespace Pass

variable {mode : Override} {annotations : Annotations}

theorem followRedirect_eq (binding : Binding) (redirect : Option (List String)) :
    ∃ path, followRedirect binding redirect = binding.withStubPath path := by
  cases redirect with
  | none => exact ⟨binding.stubPath, rfl⟩
  | some path => exact ⟨path, rfl⟩

theorem stubs_inside (binding : Binding) (annotations : Annotations) :
    (inside binding annotations).stubs = binding.stubs := by
  unfold inside
  cases annotations.redirect <;> rfl

theorem answers_inside (binding : Binding) (annotations : Annotations) :
    (inside binding annotations).answers = binding.answers := by
  unfold inside
  cases annotations.redirect <;> rfl

/-- A special marker goes away, or what is kept of it stands there. -/
theorem visitFields_marker {marker : FieldMarker} {fields fields' : List (String × Node)}
    (ends : visitFields evaluator binding mode marker fields = .ok fields')
    (special : marker ≠ .ordinary) :
    fields'.lookup markerKey = (fields.lookup markerKey).bind fun _ => marker.kept? := by
  induction fields generalizing fields' with
  | nil =>
      cases ends
      rfl
  | cons entry fields induction =>
      rcases entry with ⟨key, field⟩
      rcases visitFields_cons_ends ends with ⟨rest, others, left⟩
      rw [List.lookup_cons]
      cases left with
      | visited ordinary _ =>
          have different : (markerKey == key) = false := by
            rw [beq_eq_false_iff_ne]
            exact Ne.symm (ordinary.resolve_left special)
          rw [List.lookup_cons, different]
          exact induction others
      | kept =>
          rw [List.lookup_cons, beq_self_eq_true]
          rfl
      | dropped =>
          rw [beq_self_eq_true, induction others]
          exact Option.bind_fun_none _

theorem visit_map_cases {fields : List (String × Node)} {node' : Node}
    (ends : visit evaluator binding mode (.mk (.map fields) annotations) = .ok node') :
    ∃ plan, MapPlan.Follows evaluator ((inside binding annotations).withScope fields) fields plan ∧
      ((∃ base redirect, plan = .replaced base redirect ∧ node'.value = .map base) ∨
        ∃ marker redirect base path fields', plan = .fields marker redirect base ∧
          visitFields evaluator
            (((inside binding annotations).withScope fields).withStubPath path)
            (mode.entries annotations.replace base.isSome) marker fields = .ok fields' ∧
          node'.value = .map (MapPlan.addBase fields' base)) := by
  rw [visit] at ends
  rcases ok_of_bind ends with ⟨plan, planned, ends⟩
  refine ⟨plan, MapPlan.ofFields_follows planned, ?_⟩
  cases plan with
  | replaced base redirect =>
      cases ends
      exact .inl ⟨base, redirect, rfl, rfl⟩
  | fields marker redirect base =>
      rcases ok_of_bind ends with ⟨fields', visited, ends⟩
      cases ends
      rcases followRedirect_eq ((inside binding annotations).withScope fields) redirect with
        ⟨path, same⟩
      exact .inr ⟨marker, redirect, base, path, fields', rfl, same ▸ visited, rfl⟩

theorem visit_list_cases {entries : List Node} {node' : Node}
    (ends : visit evaluator binding mode (.mk (.list entries) annotations) = .ok node') :
    ∃ plan, ListPlan.Follows evaluator (inside binding annotations)
        (entries.filterMap Node.name?) entries false plan ∧
      ((∃ added redirect, plan = .replaced added redirect ∧ node'.value = .list added) ∨
        ∃ steps place redirect merged entries', plan = .entries steps place redirect merged ∧
          visitEntries evaluator place (mode.entries annotations.replace merged) merged 0 steps
            entries = .ok entries' ∧
          node'.value = .list entries') := by
  rw [visit] at ends
  rcases ok_of_bind ends with ⟨plan, planned, ends⟩
  refine ⟨plan, ListPlan.ofEntries_follows (inside binding annotations).stubPath planned, ?_⟩
  cases plan with
  | replaced added redirect =>
      cases ends
      exact .inl ⟨added, redirect, rfl, rfl⟩
  | entries steps place redirect merged =>
      rcases ok_of_bind ends with ⟨entries', visited, ends⟩
      cases ends
      exact .inr ⟨steps, place, redirect, merged, entries', rfl, visited, rfl⟩

/-! The other way round: a visit follows the plan. -/

theorem visit_map_replaced {fields base : List (String × Node)} {redirect : Option (List String)}
    (planned : MapPlan.ofFields evaluator ((inside binding annotations).withScope fields) fields =
      .ok (.replaced base redirect)) :
    ∃ node', visit evaluator binding mode (.mk (.map fields) annotations) = .ok node' ∧
      node'.value = .map base := by
  unfold inside at planned
  simp only [visit, planned]
  exact ⟨_, rfl, rfl⟩

theorem visit_map_fields {fields fields' : List (String × Node)} {marker : FieldMarker}
    {redirect : Option (List String)} {base : Option (List (String × Node))}
    (planned : MapPlan.ofFields evaluator ((inside binding annotations).withScope fields) fields =
      .ok (.fields marker redirect base))
    (visited : visitFields evaluator
      (followRedirect ((inside binding annotations).withScope fields) redirect)
      (mode.entries annotations.replace base.isSome) marker fields = .ok fields') :
    ∃ node', visit evaluator binding mode (.mk (.map fields) annotations) = .ok node' ∧
      node'.value = .map (MapPlan.addBase fields' base) := by
  unfold inside at planned visited
  simp only [visit, planned, bind, Except.bind, visited]
  exact ⟨_, rfl, rfl⟩

theorem visit_list_replaced {entries added : List Node} {redirect : Option (List String)}
    (planned : ListPlan.ofEntries evaluator (entries.filterMap Node.name?)
      (inside binding annotations) none false entries = .ok (.replaced added redirect)) :
    ∃ node', visit evaluator binding mode (.mk (.list entries) annotations) = .ok node' ∧
      node'.value = .list added := by
  unfold inside at planned
  simp only [visit, planned]
  exact ⟨_, rfl, rfl⟩

theorem visit_list_entries {entries entries' : List Node} {steps : List EntryStep}
    {below : Binding} {redirect : Option (List String)} {merged : Bool}
    (planned : ListPlan.ofEntries evaluator (entries.filterMap Node.name?)
      (inside binding annotations) none false entries =
        .ok (.entries steps below redirect merged))
    (visited : visitEntries evaluator below (mode.entries annotations.replace merged) merged 0
      steps entries = .ok entries') :
    ∃ node', visit evaluator binding mode (.mk (.list entries) annotations) = .ok node' ∧
      node'.value = .list entries' := by
  unfold inside at planned
  simp only [visit, planned, bind, Except.bind, visited]
  exact ⟨_, rfl, rfl⟩

/-- A leaf, or what a stub has for it, keeps its value, has its expression read, or is
evaluated. -/
theorem leaf_values {node node' : Node} (ends : leaf evaluator binding mode node = .ok node') :
    ∃ current : Node,
      (current = node ∨ ∃ found path, binding.findInStubs? path = some found ∧
        current.value = found.value) ∧
      (node'.value = current.value ∨
        ∃ expression, current.expression? binding.path = some (.ok expression) ∧
          (node'.value = .expression expression ∨
            ∃ value report, evaluator binding expression = .ok (.value value report) ∧
              node'.value = value.value)) := by
  refine ⟨(stubFor? node binding mode).getD node, ?_, ?_⟩
  · cases held : stubFor? node binding mode with
    | none => exact .inl rfl
    | some current =>
        simp only [stubFor?] at held
        split at held
        · rcases Option.map_eq_some_iff.mp held with ⟨found, below, rfl⟩
          exact .inr ⟨found, _, below, rfl⟩
        · cases held
  · unfold leaf evaluateNode at ends
    cases holds : ((stubFor? node binding mode).getD node).expression? binding.path with
    | none =>
        rw [holds] at ends
        cases ends
        exact .inl rfl
    | some found =>
        rw [holds] at ends
        cases found with
        | error issue =>
            cases ends
            exact .inl rfl
        | ok expression =>
            rcases ok_of_bind ends with ⟨outcome, evaluated, ends⟩
            cases ends
            refine .inr ⟨expression, rfl, ?_⟩
            cases outcome with
            | value value report => exact .inr ⟨value, report, evaluated, rfl⟩
            | deferred report | failed report => exact .inl rfl

end Pass

end Stencil
