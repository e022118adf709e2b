import Stencil.Proofs.Address.Networks
import Stencil.Proofs.Evaluation.Addresses

namespace Stencil

/-! Networks in expressions: the least and the greatest address, and how many there are. -/

namespace Expression

variable {evaluator : Evaluator} {binding : Binding}

theorem evaluateWith_group (inner : Expression) :
    evaluateWith evaluator binding (.group inner) = evaluateWith evaluator binding inner := by
  rw [evaluateWith]

/-! ## Calls of functions by their names -/

theorem evaluateWith_apply {name : String} {function : Builtin} {arguments : List Expression}
    {nodes : List Node} {report : Report} (named : Builtin.ofName? name = some function)
    (given : operands evaluator binding {} arguments = .ok (.ok (nodes, report))) :
    evaluateWith evaluator binding (.call (.reference [name]) arguments) =
      (function.apply evaluator binding nodes).map (Outcome.after report) := by
  have found : builtin? (.reference [name]) = some function := named
  rw [evaluateWith]
  simp only [found, given, bind, Except.bind, pure, Except.pure]
  cases function.apply evaluator binding nodes <;> rfl

theorem evaluateWith_called {name : String} {function : Builtin} {arguments : List Expression}
    {nodes : List Node} {report : Report} {result : Except Obstacle Value}
    (named : Builtin.ofName? name = some function)
    (given : operands evaluator binding {} arguments = .ok (.ok (nodes, report)))
    (applied : function.apply evaluator binding nodes = .ok (.ofResult binding.source result)) :
    evaluateWith evaluator binding (.call (.reference [name]) arguments) =
      .ok (called binding.source (report.join {}) result) := by
  rw [evaluateWith_apply named given, applied, ← ofResult_after]
  rfl

theorem operands_single {argument : Expression} {node : Node} {report : Report}
    (here : evaluateWith evaluator binding argument = .ok (.value node report)) :
    operands evaluator binding {} [argument] = .ok (.ok ([node], report.join {})) := by
  simp only [operands, here, bind, Except.bind, pure, Except.pure, Except.map, Report.empty_join]

end Expression

/-! ## Functions on networks -/

namespace AddressFunction

variable {node : Node} {text : String} {address : Address} {hosts : Nat} {range : AddressRange}

theorem network_of_text (function : Builtin) (written : node.value = .text text) :
    network function [node] =
      (AddressRange.ofNetwork text).mapError (.network function) := by
  have read : Arguments.text function 0 node = .ok text := by rw [Arguments.text, written]
  rw [network]
  simp only [read, bind, Except.bind, pure, Except.pure]
  cases AddressRange.ofNetwork text <;> rfl

/-- Why a text writes no network is why the functions have no value. -/
theorem refused_of_text {fault : AddressFault} (written : node.value = .text text)
    (refused : AddressRange.ofNetwork text = .error fault) :
    least [node] = .error (.network .minIp fault) ∧
      greatest [node] = .error (.network .maxIp fault) ∧
        count [node] = .error (.network .numIp fault) := by
  unfold least greatest count
  rw [network_of_text _ written, network_of_text _ written, network_of_text _ written, refused]
  exact ⟨rfl, rfl, rfl⟩

theorem least_of_text (written : node.value = .text text)
    (reads : AddressRange.ofNetwork text = .ok range) :
    least [node] = .ok (.text range.firstAddress.print) := by
  rw [least, network_of_text _ written, reads]
  rfl

theorem greatest_of_text (written : node.value = .text text)
    (reads : AddressRange.ofNetwork text = .ok range) :
    greatest [node] = .ok (.text range.lastAddress.print) := by
  rw [greatest, network_of_text _ written, reads]
  rfl

/-- The number of addresses fits in a word up to 62 bits for the hosts. -/
theorem word?_pow (hosts : Nat) : (∃ word : Int64, word.toInt = 2 ^ hosts ∧
    Number.word? (2 ^ hosts) = some word ∧ hosts < 63) ∨
    Number.word? (2 ^ hosts) = none ∧ 63 ≤ hosts := by
  have positive : (0 : Int) < 2 ^ hosts := by positivity
  by_cases small : hosts < 63
  · have less : (2 : Int) ^ hosts ≤ 2 ^ 62 := pow_le_pow_right₀ (by decide) (by omega)
    cases found : Number.word? (2 ^ hosts) with
    | none =>
        have wide := Number.word?_eq_none_iff.mp found
        unfold Number.minimum Number.maximum at wide
        omega
    | some word => exact .inl ⟨word, Number.word?_eq_some_iff.mp found, rfl, small⟩
  · have more : (2 : Int) ^ 63 ≤ 2 ^ hosts := pow_le_pow_right₀ (by decide) (by omega)
    refine .inr ⟨Number.word?_eq_none_iff.mpr (.inr ?_), by omega⟩
    unfold Number.maximum
    omega

theorem count_of_text (written : node.value = .text text)
    (reads : AddressRange.ofNetwork text = .ok range)
    (is : AddressRange.IsNetwork address hosts range) :
    count [node] = (Number.word? (2 ^ hosts)).elim (.error .addressCount) (.ok ∘ .integer) := by
  rw [count, network_of_text _ written, reads]
  simp only [Except.mapError, bind, Except.bind, pure, Except.pure, throw, throwThe,
    MonadExceptOf.throw, is.count]
  cases Number.word? (2 ^ hosts) <;> rfl

end AddressFunction

namespace Expression

variable {evaluator : Evaluator} {binding : Binding} {argument : Expression} {node : Node}
  {before : Report} {text front back : String} {address : Address} {length hosts : Nat}
  {range : AddressRange}

/-- A function on networks is evaluated to what it makes of the only argument. -/
theorem evaluateWith_network {name : String} {function : Builtin}
    (computed : List Node → Except Issue Value) (named : Builtin.ofName? name = some function)
    (applied : ∀ nodes, function.apply evaluator binding nodes =
      .ok (.ofResult binding.source (orIssue (computed nodes))))
    (here : evaluateWith evaluator binding argument = .ok (.value node before)) :
    evaluateWith evaluator binding (.call (.reference [name]) [argument]) =
      .ok (called binding.source (before.join {}) (orIssue (computed [node]))) := by
  rw [evaluateWith_called named (operands_single here) (applied [node]), Report.join_join_empty]

section

variable (here : evaluateWith evaluator binding argument = .ok (.value node before))
  (written : node.value = .text text)
include here written

theorem evaluateWith_refused {fault : AddressFault}
    (refused : AddressRange.ofNetwork text = .error fault) :
    ∀ function ∈ [Builtin.minIp, .maxIp, .numIp],
      evaluateWith evaluator binding (.call (.reference [function.name]) [argument]) =
        .ok (.failed { before.join {} with issue := some (.network function fault) }) := by
  rcases AddressFunction.refused_of_text written refused with ⟨least, greatest, count⟩
  rw [List.forall_mem_cons, List.forall_mem_cons, List.forall_mem_singleton]
  refine ⟨?_, ?_, ?_⟩
  · rw [evaluateWith_network AddressFunction.least rfl (fun _ => rfl) here, least]
    rfl
  · rw [evaluateWith_network AddressFunction.greatest rfl (fun _ => rfl) here, greatest]
    rfl
  · rw [evaluateWith_network AddressFunction.count rfl (fun _ => rfl) here, count]
    rfl

theorem evaluateWith_least (reads : AddressRange.ofNetwork text = .ok range) :
    evaluateWith evaluator binding (.call (.reference ["min_ip"]) [argument]) =
      .ok (.value (.ofSource binding.source (.text range.firstAddress.print)) (before.join {})) := by
  rw [evaluateWith_network AddressFunction.least rfl (fun _ => rfl) here,
    AddressFunction.least_of_text written reads]
  rfl

theorem evaluateWith_greatest (reads : AddressRange.ofNetwork text = .ok range) :
    evaluateWith evaluator binding (.call (.reference ["max_ip"]) [argument]) =
      .ok (.value (.ofSource binding.source (.text range.lastAddress.print)) (before.join {})) := by
  rw [evaluateWith_network AddressFunction.greatest rfl (fun _ => rfl) here,
    AddressFunction.greatest_of_text written reads]
  rfl

theorem evaluateWith_count (reads : AddressRange.ofNetwork text = .ok range)
    (is : AddressRange.IsNetwork address hosts range) :
    evaluateWith evaluator binding (.call (.reference ["num_ip"]) [argument]) =
      .ok (match Number.word? (2 ^ hosts) with
        | some word => .value (.ofSource binding.source (.integer word)) (before.join {})
        | none => .failed { before.join {} with issue := some .addressCount }) := by
  rw [evaluateWith_network AddressFunction.count rfl (fun _ => rfl) here,
    AddressFunction.count_of_text written reads is]
  cases Number.word? (2 ^ hosts) <;> rfl

/-- One more than the difference of the ends is the number of the addresses. -/
theorem evaluateWith_size (reads : AddressRange.ofNetwork text = .ok range)
    (is : AddressRange.IsNetwork address hosts range) {word : Int64}
    (number : word.toInt = 2 ^ hosts) :
    ∃ report, evaluateWith evaluator binding
      (.binary .add (.group (.binary .subtract (.call (.reference ["max_ip"]) [argument])
        (.call (.reference ["min_ip"]) [argument]))) (.integer 1)) =
      .ok (.value (.ofSource binding.source (.integer word)) report) := by
  have ordered := range.first_le_last
  have count := is.count
  have bounds := Number.fits_toInt word
  have reaches : Address.Reaches range.lastAddress.value range.firstAddress.value := by
    unfold Address.Reaches Number.minimum
    unfold Number.Fits at bounds
    change _ < (range.last : Int) - range.first ∧ (range.last : Int) - range.first ≤ _
    omega
  have difference := evaluateWith_distance (evaluateWith_greatest here written reads)
    (evaluateWith_least here written reads) rfl (Address.ofText_print _) rfl
    (Address.ofText_print _) rfl
  rw [if_pos reaches] at difference
  have exact : (Int64.ofInt ((range.last : Int) - range.first)).toInt = range.last - range.first :=
    Number.word?_eq_some_iff.mp (if_pos ⟨Int.le_of_lt reaches.1, reaches.2⟩)
  have one : (1 : Int64).toInt = 1 := rfl
  rw [← evaluateWith_group] at difference
  have next : evaluateWith evaluator binding (.integer 1) =
      .ok (.value (.ofSource binding.source (.integer 1)) {}) := rfl
  have fits :
      Number.Fits ((Int64.ofInt ((range.last : Int) - range.first)).toInt + (1 : Int64).toInt) := by
    rw [exact, one, count, ← number]
    exact bounds
  rcases evaluateWith_sum difference next rfl rfl fits with ⟨sum, total, added⟩
  have same : sum = word := by
    refine Int64.toInt_inj.mp ?_
    have total : sum.toInt = (Int64.ofInt ((range.last : Int) - range.first)).toInt + 1 := total
    rw [total, exact, count, number]
  exact ⟨_, same ▸ added⟩

end

/-- A network is what shares the leading bits with an address: it starts at a multiple of its size, and
no address of another network is in it. Lengths beyond the bits of the family are refused. The number of
addresses is a power of two as long as that is an integer, and then one more than the difference of both
ends. Words suffice: there is a mask for every length, and no difference on the way is below zero. -/
theorem network_bounds (here : evaluateWith evaluator binding argument = .ok (.value node before))
    (written : node.value = .text text) (cut : Text.splitOnce? '/' text = some (front, back))
    (reads : Address.ofText front = .ok address)
    (spells : Number.Spells (Text.trim back).toList length) :
    let bits := address.family.bits
    let hosts := bits - length
    let least := Expression.call (.reference ["min_ip"]) [argument]
    let greatest := Expression.call (.reference ["max_ip"]) [argument]
    let count := Expression.call (.reference ["num_ip"]) [argument]
    let value (result : Value) := Outcome.value (.ofSource binding.source result) (before.join {})
    let failed (issue : Issue) := Outcome.failed { before.join {} with issue := some issue }
    (length ≤ bits → ∃ range, AddressRange.ofNetwork text = .ok range ∧
      AddressRange.IsNetwork address hosts range ∧
      evaluateWith evaluator binding least = .ok (value (.text range.firstAddress.print)) ∧
      evaluateWith evaluator binding greatest = .ok (value (.text range.lastAddress.print)) ∧
      (hosts < 63 → ∃ word : Int64, word.toInt = 2 ^ hosts ∧
        evaluateWith evaluator binding count = .ok (value (.integer word)) ∧
        ∃ report, evaluateWith evaluator binding
          (.binary .add (.group (.binary .subtract greatest least)) (.integer 1)) =
            .ok (.value (.ofSource binding.source (.integer word)) report)) ∧
      (63 ≤ hosts → evaluateWith evaluator binding count = .ok (failed .addressCount)) ∧
      (∀ wide front' back' length', Text.splitOnce? '/' wide = some (front', back') →
        Address.ofText front' = .ok address → Number.Spells (Text.trim back').toList length' →
        length' ≤ length → ∃ outer, AddressRange.ofNetwork wide = .ok outer ∧
          outer.family = range.family ∧ outer.first ≤ range.first ∧ range.last ≤ outer.last) ∧
      AddressRange.network? address length =
        some (range.firstAddress.word, range.lastAddress.word) ∧
      AddressRange.count? range.firstAddress.word range.lastAddress.word =
        Number.word? (2 ^ hosts)) ∧
    (bits < length → AddressRange.ofNetwork text = .error (.prefixLength text) ∧
      ∀ function ∈ [Builtin.minIp, .maxIp, .numIp],
        evaluateWith evaluator binding (.call (.reference [function.name]) [argument]) =
          .ok (failed (.network function (.prefixLength text)))) ∧
    Issue.addressCount.message = "num_ip: integer overflow" := by
  intro bits hosts least greatest count value failed
  have read := AddressRange.ofNetwork_eq cut reads spells
  refine ⟨fun valid => ?_, fun long => ?_, rfl⟩
  · rw [dif_pos valid] at read
    have is := AddressRange.isNetwork_network valid
    have counted := evaluateWith_count here written read is
    refine ⟨_, read, is, evaluateWith_least here written read, evaluateWith_greatest here written read,
      fun small => ?_, fun large => ?_, ?_, AddressRange.network?_eq valid, ?_⟩
    · rcases AddressFunction.word?_pow hosts with ⟨word, number, found, -⟩ | ⟨-, large⟩
      · rw [found] at counted
        exact ⟨word, number, counted, evaluateWith_size here written read is number⟩
      · exact absurd small (Nat.not_lt.mpr large)
    · rcases AddressFunction.word?_pow hosts with ⟨_, -, -, small⟩ | ⟨none, -⟩
      · exact absurd small (Nat.not_lt.mpr large)
      · rwa [none] at counted
    · intro wide front' back' length' cut' reads' spells' shorter
      have valid' : length' ≤ address.family.bits := Nat.le_trans shorter valid
      have is' := AddressRange.isNetwork_network valid'
      have within := is.within is' (Nat.sub_le_sub_left shorter _)
      refine ⟨AddressRange.network address length' valid', ?_, rfl, within⟩
      rw [AddressRange.ofNetwork_eq cut' reads' spells', dif_pos valid']
    · rw [AddressRange.count?_eq, is.count]
  · rw [dif_neg (Nat.not_le.mpr long)] at read
    exact ⟨read, evaluateWith_refused here written read⟩

/-- The whole space of the larger family has no number of addresses. -/
theorem network_bounds_whole :
    evaluateWith (evaluate 0) {} (.call (.reference ["num_ip"]) [.text "::1/0"]) =
      .ok (.failed { issue := some .addressCount }) := by
  have reads : Address.ofText "::1" = .ok ⟨.six, 1, by decide⟩ := by decide
  have spells : Number.Spells (Text.trim "0").toList 0 :=
    ⟨['0'], by decide, List.forall_mem_singleton.mpr rfl, rfl, .inl rfl⟩
  have bounds := @network_bounds (evaluate 0) {} (.text "::1/0") _ {} "::1/0" "::1" "0" _ 0 rfl rfl
    (by decide) reads spells
  rcases bounds.1 (Nat.zero_le _) with ⟨range, -, -, -, -, -, none, -⟩
  exact none (by decide)

end Expression

end Stencil
