import Mathlib.Data.List.Forall2
import Stencil.Evaluation.Evaluate
import Stencil.Proofs.Node.Refinement

namespace Stencil

/-! Two evaluations of one expression, the second of them possibly ahead of the first:
its document may be further resolved. What the first one finds the second one finds
as well, up to the annotations that are masked; where the first one has to wait the
second one may do anything. When the second one is not ahead the two agree. -/

def Report.masked (aspects : Aspects) (report : Report) : Report :=
  { report with source := aspects.maskedSource report.source }

def Outcome.masked (aspects : Aspects) : Outcome → Outcome
  | .value node report => .value (node.masked aspects) (report.masked aspects)
  | .deferred report => .deferred (report.masked aspects)
  | .failed report => .failed (report.masked aspects)

theorem Outcome.masked_all (outcome : Outcome) : outcome.masked .all = outcome := by
  cases outcome with
  | value node report => rw [masked, Node.masked_all]; rfl
  | deferred report | failed report => rfl

theorem Report.masked_join {aspects : Aspects} {before before' after after' : Report}
    (same : before.masked aspects = before'.masked aspects)
    (same' : after.masked aspects = after'.masked aspects) :
    (before.join after).masked aspects = (before'.join after').masked aspects := by
  simp only [Report.masked, Report.mk.injEq] at same same'
  simp only [Report.masked, Report.join, Aspects.maskedSource_orElse, same, same']

/-- A computation that ends with a value has one at every step. -/
theorem ok_of_bind {α β ε : Type} {first : Except ε α} {next : α → Except ε β} {result : β}
    (ends : (first >>= next) = .ok result) :
    ∃ value, first = .ok value ∧ next value = .ok result := by
  cases first with
  | error cause => cases ends
  | ok value => exact ⟨value, rfl, ends⟩

theorem ok_of_map {α β ε : Type} {first : Except ε α} {function : α → β} {result : β}
    (ends : first.map function = .ok result) :
    ∃ value, first = .ok value ∧ function value = result := by
  cases first with
  | error cause => cases ends
  | ok value => exact ⟨value, rfl, Except.ok.inj ends⟩

/-- Two results of which a function makes the same: one error, or two values of which it
makes the same. -/
theorem except_of_map_eq {α β ε : Type} {function : α → β} {first second : Except ε α}
    (same : first.map function = second.map function) :
    (∃ cause, first = .error cause ∧ second = .error cause) ∨
      ∃ value value', first = .ok value ∧ second = .ok value' ∧
        function value = function value' := by
  cases first <;> cases second <;>
    simp only [Except.map, Except.ok.injEq, Except.error.injEq, reduceCtorEq] at same
  · exact .inl ⟨_, rfl, congrArg Except.error same.symm⟩
  · exact .inr ⟨_, _, rfl, rfl, same⟩

/-! What is found in two lists whose members are related in pairs. -/

section
variable {α β : Type} {related : α → α → Prop} {found : β → β → Prop} {firsts seconds : List α}

theorem findSome_related {look : α → Option β}
    (each : ∀ first second, related first second → Option.Rel found (look first) (look second))
    (pairs : List.Forall₂ related firsts seconds) :
    Option.Rel found (firsts.findSome? look) (seconds.findSome? look) := by
  induction pairs with
  | nil => exact .none
  | cons here _ induction =>
      have looks := each _ _ here
      rw [List.findSome?_cons, List.findSome?_cons]
      generalize look _ = first at looks ⊢
      generalize look _ = second at looks ⊢
      cases looks with
      | none => exact induction
      | some same => exact .some same

theorem getLast_related (pairs : List.Forall₂ related firsts seconds) :
    Option.Rel related firsts.getLast? seconds.getLast? := by
  induction pairs with
  | nil => exact .none
  | cons here rest induction =>
      cases rest with
      | nil => exact .some here
      | cons _ _ => exact induction

theorem getD_related {default : α} (refl : related default default) {first second : Option α}
    (both : Option.Rel related first second) :
    related (first.getD default) (second.getD default) := by
  cases both with
  | none => exact refl
  | some same => exact same

end

variable {aspects : Aspects} {ahead : Bool}

/-! ## Computations on values -/

/-- The result of a computation on values stays; only an obstacle that waits may go. -/
def ResultPrecedes {α : Type} (ahead : Bool) (result later : Except Obstacle α) : Prop :=
  result = later ∨ ahead = true ∧ result = .error .unresolved

namespace ResultPrecedes

variable {α β : Type}

theorem refl (result : Except Obstacle α) : ResultPrecedes ahead result result := .inl rfl

theorem waiting (later : Except Obstacle α) : ResultPrecedes true (.error .unresolved) later :=
  .inr ⟨rfl, rfl⟩

theorem bind {result later : Except Obstacle α} {next next' : α → Except Obstacle β}
    (first : ResultPrecedes ahead result later)
    (rest : ∀ value, ResultPrecedes ahead (next value) (next' value)) :
    ResultPrecedes ahead (result >>= next) (later >>= next') := by
  rcases first with rfl | ⟨enabled, rfl⟩
  · cases result with
    | error obstacle => exact refl _
    | ok value => exact rest value
  · exact .inr ⟨enabled, rfl⟩

theorem map {result later : Except Obstacle α} (function : α → β)
    (first : ResultPrecedes ahead result later) :
    ResultPrecedes ahead (result.map function) (later.map function) := by
  rcases first with rfl | ⟨enabled, rfl⟩
  · exact refl _
  · exact .inr ⟨enabled, rfl⟩

/-- The rest of a computation is compared by what a function makes of its results. -/
theorem bindMap {γ : Type} {result later : Except Obstacle α}
    {next next' : α → Except Obstacle β} {function : β → γ}
    (first : ResultPrecedes ahead result later)
    (rest : ∀ value, ResultPrecedes ahead ((next value).map function)
      ((next' value).map function)) :
    ResultPrecedes ahead ((result >>= next).map function) ((later >>= next').map function) := by
  rcases first with rfl | ⟨enabled, rfl⟩
  · cases result with
    | error obstacle => exact refl _
    | ok value => exact rest value
  · exact .inr ⟨enabled, rfl⟩

end ResultPrecedes

/-! ## Lookups -/

inductive Lookup.Precedes (aspects : Aspects) (ahead : Bool) : Lookup → Lookup → Prop where
  | missing : Precedes aspects ahead .missing .missing
  | unresolved : Precedes aspects ahead .unresolved .unresolved
  | found {node later : Node} (same : node.masked aspects = later.masked aspects) :
      Precedes aspects ahead (.found node) (.found later)
  | waiting (enabled : ahead = true) (later : Lookup) : Precedes aspects ahead .unresolved later
  | refined {node later : Node} (enabled : ahead = true) (settled : node.listsSettled)
      (refined : (node.masked aspects).RefinedBy (later.masked aspects)) :
      Precedes aspects ahead (.found node) (.found later)

namespace Lookup.Precedes

theorem of_masked {lookup later : Lookup} (same : lookup.masked aspects = later.masked aspects) :
    lookup.Precedes aspects ahead later := by
  cases lookup <;> cases later <;> simp only [Lookup.masked, reduceCtorEq] at same
  · exact .found (Lookup.found.inj same)
  · exact .unresolved
  · exact .missing

theorem of_refined {lookup later : Lookup}
    (refined : (lookup.masked aspects).RefinedBy (later.masked aspects)) :
    lookup.Precedes aspects true later := by
  cases lookup with
  | unresolved => exact .waiting rfl later
  | missing =>
      cases later <;> cases refined
      exact .missing
  | found node =>
      cases later with
      | found later =>
          cases refined with
          | found settled refined => exact .refined rfl (by simpa using settled) refined
      | unresolved | missing => cases refined

end Lookup.Precedes

/-- One scope and the same one later. -/
inductive ScopePrecedes (aspects : Aspects) (ahead : Bool) :
    List (String × Node) → List (String × Node) → Prop where
  | alike {fields laters : List (String × Node)}
      (same : fieldsMasked aspects fields = fieldsMasked aspects laters) :
      ScopePrecedes aspects ahead fields laters
  | refined {fields laters : List (String × Node)} (enabled : ahead = true)
      (settled : fieldsSettled fields)
      (refined : fieldsRefined (fieldsMasked aspects fields) (fieldsMasked aspects laters)) :
      ScopePrecedes aspects ahead fields laters

namespace Binding

/-- Two bindings at one place, up to the annotations that are masked. The documents around
the place may differ. -/
structure SamePlace (aspects : Aspects) (binding later : Binding) : Prop where
  path : binding.path = later.path
  stubPath : binding.stubPath = later.stubPath
  answers : binding.answers = later.answers
  source : aspects.maskedSource binding.source = aspects.maskedSource later.source
  locals : fieldsMasked aspects binding.locals = fieldsMasked aspects later.locals
  stubs : entriesMasked aspects binding.stubs = entriesMasked aspects later.stubs

/-- Two bindings at one place, in documents of which the second may be further on. -/
structure Precedes (aspects : Aspects) (ahead : Bool) (binding later : Binding) : Prop
    extends SamePlace aspects binding later where
  scopes : List.Forall₂ (ScopePrecedes aspects ahead) binding.scopes later.scopes

theorem findIn_masked (aspects : Aspects) (fields : List (String × Node)) (first : String)
    (rest : List String) :
    findIn (fieldsMasked aspects fields) first rest =
      (findIn fields first rest).map (Lookup.masked aspects) := by
  unfold findIn
  rw [lookup_fieldsMasked, Option.map_map, Option.map_map]
  congr 1
  funext node
  exact node.find_masked aspects rest

theorem findIn_refined {fields laters : List (String × Node)} (settled : fieldsSettled fields)
    (refined : fieldsRefined fields laters) (first : String) (rest : List String) :
    Option.Rel Lookup.RefinedBy (findIn fields first rest) (findIn laters first rest) := by
  unfold findIn
  rcases refined.lookup first with ⟨absent, absent'⟩ | ⟨field, later, found, found', here⟩
  · rw [absent, absent']
    exact .none
  · rw [found, found']
    exact .some (here.find (lookup_settled settled found) rest)

theorem findIn_precedes {fields laters : List (String × Node)}
    (precedes : ScopePrecedes aspects ahead fields laters) (first : String) (rest : List String) :
    Option.Rel (Lookup.Precedes aspects ahead) (findIn fields first rest)
      (findIn laters first rest) := by
  cases precedes with
  | alike same =>
      have lookups := findIn_masked aspects fields first rest
      rw [same, findIn_masked] at lookups
      cases found : findIn fields first rest <;> cases found' : findIn laters first rest <;>
        simp only [found, found', Option.map_none, Option.map_some, Option.some.injEq,
          reduceCtorEq] at lookups
      · exact .none
      · exact .some (.of_masked lookups.symm)
  | refined enabled settled refined =>
      subst enabled
      have lookups := findIn_refined (by simpa using settled) refined first rest
      rw [findIn_masked, findIn_masked] at lookups
      cases found : findIn fields first rest <;> cases found' : findIn laters first rest <;>
        simp only [found, found', Option.map_none, Option.map_some] at lookups <;>
        cases lookups
      · exact .none
      · exact .some (.of_refined ‹_›)

namespace Precedes

variable {binding later : Binding}

theorem withLocals {names names' : List (String × Node)}
    (precedes : binding.Precedes aspects ahead later)
    (same : fieldsMasked aspects names = fieldsMasked aspects names') :
    (binding.withLocals names).Precedes aspects ahead (later.withLocals names') :=
  { precedes with
    locals := by
      unfold Binding.withLocals
      rw [mergeSorted_masked, mergeSorted_masked, precedes.locals, same] }

theorem findFromRoot (precedes : binding.Precedes aspects ahead later) (path : List String) :
    (binding.findFromRoot path).Precedes aspects ahead (later.findFromRoot path) := by
  cases path with
  | nil => exact .missing
  | cons first rest =>
      apply getD_related .missing
      have roots := getLast_related precedes.scopes
      generalize binding.scopes.getLast? = root at roots ⊢
      generalize later.scopes.getLast? = root' at roots ⊢
      cases roots with
      | none => exact .none
      | some precedes => exact findIn_precedes precedes first rest

theorem findReference (precedes : binding.Precedes aspects ahead later) (path : List String) :
    (binding.findReference path).Precedes aspects ahead (later.findReference path) := by
  cases path with
  | nil => exact .missing
  | cons first rest =>
      exact getD_related .missing (findSome_related
        (fun _ _ precedes => findIn_precedes precedes first rest)
        (.cons (.alike precedes.locals) precedes.scopes))

theorem lookup (precedes : binding.Precedes aspects ahead later) (path : List String) :
    (binding.lookup path).Precedes aspects ahead (later.lookup path) := by
  unfold Binding.lookup
  split
  · exact precedes.findFromRoot _
  · exact precedes.findReference _

theorem findInStubs? (precedes : binding.Precedes aspects ahead later) (path : List String) :
    (binding.findInStubs? path).map (Node.masked aspects) =
      (later.findInStubs? path).map (Node.masked aspects) := by
  have masked : ∀ stubs : List Node,
      (stubs.findSome? fun stub => (stub.find path).found?).map (Node.masked aspects) =
        (entriesMasked aspects stubs).findSome? fun stub => (stub.find path).found? := by
    intro stubs
    induction stubs with
    | nil => rfl
    | cons stub stubs induction =>
        rw [entriesMasked, List.findSome?_cons, List.findSome?_cons, Node.find_masked]
        cases stub.find path with
        | found node => rfl
        | unresolved => exact induction
        | missing => exact induction
  unfold Binding.findInStubs?
  rw [masked, masked, precedes.stubs]

end Precedes

end Binding

end Stencil
