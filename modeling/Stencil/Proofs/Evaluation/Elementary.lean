import Stencil.Proofs.Evaluation.Stability
import Stencil.Proofs.Evaluation.Values
import Stencil.Proofs.Node.Elementary

namespace Stencil

/-! Elementary expressions in elementary documents have plain values. -/

namespace Binding

/-- What is found is found among the local names or in one of the scopes. -/
theorem table_of_lookup {binding : Binding} {path : List String} {node : Node}
    (found : binding.lookup path = .found node) :
    ∃ fields ∈ binding.locals :: binding.scopes, ∃ first rest,
      findIn fields first rest = some (.found node) := by
  have present : ∀ {held : Option Lookup}, held.getD .missing = .found node →
      held = some (.found node) := by
    intro held found
    cases held with
    | none => cases found
    | some result => exact congrArg some found
  unfold lookup at found
  split at found
  · rename_i path
    cases path with
    | nil => cases found
    | cons first rest =>
        have held := present found
        rw [Option.bind_eq_some_iff] at held
        rcases held with ⟨root, last, held⟩
        exact ⟨root, List.mem_cons_of_mem _ (List.mem_of_getLast? last), first, rest, held⟩
  · cases path with
    | nil => cases found
    | cons first rest =>
        rcases List.exists_of_findSome?_eq_some (present found) with ⟨fields, member, held⟩
        exact ⟨fields, member, first, rest, held⟩

/-- What is found without local names is found in one of the scopes. -/
theorem scope_of_lookup {binding : Binding} (none : binding.locals = []) {path : List String}
    {node : Node} (found : binding.lookup path = .found node) :
    ∃ fields ∈ binding.scopes, ∃ first rest, findIn fields first rest = some (.found node) := by
  rcases table_of_lookup found with ⟨fields, member, first, rest, held⟩
  rw [none] at member
  rcases List.mem_cons.mp member with rfl | member
  · cases held
  · exact ⟨fields, member, first, rest, held⟩

/-- Every scope belongs to a simple map, there are no local names, the stubs are plain,
and nothing is redirected. -/
structure IsSimple (binding : Binding) : Prop where
  locals : binding.locals = []
  stubPath : binding.stubPath = binding.path
  stubs : ∀ stub ∈ binding.stubs, stub.isPlain
  scopes : ∀ fields ∈ binding.scopes, fieldsSimple fields

/-- What is found and resolved is plain. -/
def FindsPlain (binding : Binding) : Prop :=
  ∀ path node, binding.lookup path = .found node → node.isResolved → node.isPlain

theorem IsSimple.findsPlain {binding : Binding} (place : binding.IsSimple) :
    binding.FindsPlain := by
  intro path node found resolved
  rcases scope_of_lookup place.locals found with ⟨fields, member, first, rest, held⟩
  unfold findIn at held
  cases below : fields.lookup first with
  | none =>
      rw [below] at held
      cases held
  | some field =>
      rw [below] at held
      have simple := (lookup_simple (place.scopes fields member) below).2
      exact Node.isPlain_of_resolved (Node.find_simple simple (Option.some.inj held)) resolved

end Binding

/-! ## Values of elementary expressions -/

namespace Value

theorem ok_of_orAddressFault {result : Except AddressFault Value} {value : Value}
    (computed : orAddressFault result = .ok value) : result = .ok value := by
  cases result with
  | error fault => cases computed
  | ok held =>
      cases computed
      rfl

section
variable {motive : Value → Prop} {operator : Operator} {left right result : Value}
  (integer : ∀ word, motive (.integer word)) (boolean : ∀ truth, motive (.boolean truth))
  (address : ∀ place : Address, motive (.text place.print))
  (append : ∀ {first second}, operator = .add ∨ operator = .concatenation →
    left = .text first → right = .text second → motive (.text (first ++ second)))

include address in
theorem moveAddress_holds {moved : String} {distance : Int}
    (computed : moveAddress moved distance = .ok result) : motive result := by
  rcases ok_of_map (ok_of_orAddressFault computed) with ⟨place, _, rfl⟩
  exact address place

include integer address append in
theorem arithmetic_holds (computed : arithmetic operator left right = .ok result) : motive result := by
  unfold arithmetic at computed
  simp only at computed
  split at computed
  · rcases ok_of_map computed with ⟨word, _, rfl⟩
    exact integer word
  · split at computed
    · cases computed
    · split at computed
      · exact moveAddress_holds address computed
      · exact moveAddress_holds address computed
      · cases computed
  · split at computed
    · cases computed
      exact append (.inl rfl) rfl rfl
    · split at computed
      · rcases ok_of_map (ok_of_orAddressFault computed) with ⟨word, _, rfl⟩
        exact integer word
      · cases computed
    · cases computed
  · cases computed

include boolean in
theorem compare_holds (computed : compare operator left right = .ok result) : motive result := by
  unfold compare at computed
  split at computed
  · cases computed
    exact boolean _
  · cases computed
    exact boolean _
  · split at computed
    · cases computed
      exact boolean _
    · cases computed

include integer boolean address append in
/-- Operators make integers, truth values, addresses, and texts that are put together. -/
theorem operate_holds (computed : operate operator left right = .ok result) : motive result := by
  unfold operate at computed
  split at computed
  · exact arithmetic_holds integer address append computed
  · exact arithmetic_holds integer address append computed
  · exact arithmetic_holds integer address append computed
  · exact arithmetic_holds integer address append computed
  · exact arithmetic_holds integer address append computed
  · unfold concatenate at computed
    split at computed
    · cases computed
      exact append (.inr rfl) rfl rfl
    · cases computed
  · exact compare_holds boolean computed

include integer boolean in
theorem combine_holds (operator : Operator) (left right : Value) :
    motive (combine operator left right) := by
  unfold combine
  split
  · exact integer _
  · exact boolean _

end

theorem operate_plain {operator : Operator} {left right result : Value}
    (first : left.isPlain) (second : right.isPlain)
    (computed : operate operator left right = .ok result) : result.isPlain := by
  refine operate_holds (motive := (isPlain ·)) (fun _ => rfl) (fun _ => rfl)
    Address.print_unopened (fun _ first' second' => ?_) computed
  rw [first'] at first
  rw [second'] at second
  exact Text.isUnopened_append first second

theorem combine_plain (operator : Operator) (left right : Value) :
    (combine operator left right).isPlain :=
  combine_holds (motive := (isPlain ·)) (fun _ => rfl) (fun _ => rfl) operator left right

end Value

namespace Expression

variable {evaluator : Evaluator} {binding : Binding}

mutual
theorem evaluateWith_plain (place : binding.FindsPlain) : ∀ (expression : Expression)
    {node : Node} {report : Report}, expression.isElementary →
      evaluateWith evaluator binding expression = .ok (.value node report) → node.isPlain
  | .nil, _, _, _, ends | .boolean _, _, _, _, ends | .integer _, _, _, _, ends => by
      cases ends
      rfl
  | .text value, _, _, elementary, ends => by
      cases ends
      exact elementary
  | .list entries, _, _, elementary, ends => by
      cases evaluates_of_value ends with
      | list values => exact operands_plain place entries elementary values
  | .reference path, _, _, _, ends => by
      cases evaluates_of_value ends with
      | @reference _ found looked resolved =>
          have plain := place _ _ looked resolved
          rcases found with ⟨value, annotations⟩
          exact plain
  | .group inner, _, _, elementary, ends => evaluateWith_plain place inner elementary ends
  | .binary operator left right, _, _, elementary, ends => by
      rw [isElementary, Bool.and_eq_true] at elementary
      cases evaluates_of_value ends with
      | first given => exact evaluateWith_plain place left elementary.1 given
      | second _ given => exact evaluateWith_plain place right elementary.2 given
      | decided => rfl
      | combined => exact Value.combine_plain _ _ _
      | @computed _ _ _ node other _ _ _ _ given given' result =>
          have first := evaluateWith_plain place left elementary.1 given
          have second := evaluateWith_plain place right elementary.2 given'
          rcases node with ⟨value, annotations⟩
          rcases other with ⟨value', annotations'⟩
          exact Value.operate_plain first second result
  | .not operand, _, _, _, ends => by
      cases evaluates_of_value ends
      rfl
  | .conditional condition consequence alternative, _, _, elementary, ends => by
      rw [isElementary, Bool.and_eq_true, Bool.and_eq_true] at elementary
      cases evaluates_of_value ends with
      | consequence _ _ given => exact evaluateWith_plain place consequence elementary.1.2 given
      | alternative _ _ given => exact evaluateWith_plain place alternative elementary.2 given
  | .prefer inner, _, _, elementary, ends => by
      cases evaluates_of_value ends with
      | prefer given => exact evaluateWith_plain place inner elementary given
  | .merge _ _ _, _, _, elementary, _ | .auto _, _, _, elementary, _
  | .call _ _, _, _, elementary, _ | .lambda _ _, _, _, elementary, _
  | .mapping _ _, _, _, elementary, _ => by cases elementary

theorem operands_plain (place : binding.FindsPlain) : ∀ (entries : List Expression)
    {nodes : List Node} {before report : Report}, allElementary entries →
      operands evaluator binding before entries = .ok (.ok (nodes, report)) → entriesPlain nodes
  | [], _, _, _, _, ends => by
      cases ends
      rfl
  | entry :: entries, _, _, _, elementary, ends => by
      rw [allElementary, Bool.and_eq_true] at elementary
      rcases operands_cons ends with ⟨node, next, others, first, rest, rfl⟩
      rw [entriesPlain, Bool.and_eq_true]
      exact ⟨evaluateWith_plain place entry elementary.1 first,
        operands_plain place entries elementary.2 rest⟩
end

end Expression

end Stencil
