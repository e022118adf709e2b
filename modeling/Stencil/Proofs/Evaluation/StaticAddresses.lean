import Stencil.Proofs.Address.Enumeration
import Stencil.Proofs.Evaluation.Networks
import Stencil.Proofs.Evaluation.Precedence

namespace Stencil

/-! The addresses of instances are what their indices find in the static ranges of a network, taken
one range behind the other. -/

/-! ## Computing from every entry of a list -/

section

variable {α β γ ε : Type}

/-- A list has a result if every entry has one, and then it is the list of them. -/
theorem mapM_eq_ok_iff {function : α → Except ε β} {makes : α → β → Prop} {entries : List α}
    {made : List β}
    (each : ∀ entry ∈ entries, ∀ result, function entry = .ok result ↔ makes entry result) :
    entries.mapM function = .ok made ↔ List.Forall₂ makes entries made := by
  induction entries generalizing made with
  | nil =>
      rw [List.mapM_nil, List.forall₂_nil_left_iff]
      exact ⟨fun same => (Except.ok.inj same).symm, fun same => congrArg Except.ok same.symm⟩
  | cons entry entries induction =>
      rw [List.forall_mem_cons] at each
      rw [List.mapM_cons, List.forall₂_cons_left_iff]
      constructor
      · intro ends
        rcases ok_of_bind ends with ⟨first, here, ends⟩
        rcases ok_of_bind ends with ⟨rest, others, ends⟩
        cases ends
        exact ⟨first, rest, (each.1 first).mp here, (induction each.2).mp others, rfl⟩
      · rintro ⟨first, rest, here, others, rfl⟩
        rw [(each.1 first).mpr here, (induction each.2).mpr others]
        rfl

/-- What is computed from every part of every entry. -/
theorem mapM_flatMap {parts : α → List β} {function : β → Except ε γ}
    {whole : α → Except ε (List γ)} {entries : List α}
    (each : ∀ entry ∈ entries, whole entry = (parts entry).mapM function) :
    (entries.flatMap parts).mapM function = List.flatten <$> entries.mapM whole := by
  induction entries with
  | nil => rfl
  | cons entry entries induction =>
      rw [List.forall_mem_cons] at each
      rw [List.flatMap_cons, List.mapM_append, List.mapM_cons, induction each.2, each.1]
      cases (parts entry).mapM function with
      | error cause => rfl
      | ok first => cases entries.mapM whole <;> rfl

/-- Nothing has to be waited for. -/
def Decides (result : Except Obstacle α) : Prop := result ≠ .error .unresolved

namespace Decides

theorem ok (value : α) : Decides (.ok value) := nofun

theorem refuse (issue : Issue) : Decides (refuse issue : Except Obstacle α) := nofun

theorem bind {result : Except Obstacle α} {next : α → Except Obstacle β} (first : Decides result)
    (rest : ∀ value, result = .ok value → Decides (next value)) : Decides (result >>= next) := by
  cases result with
  | error obstacle =>
      intro waits
      cases waits
      exact first rfl
  | ok value => exact rest value rfl

theorem mapM {function : α → Except Obstacle β} {entries : List α}
    (each : ∀ entry ∈ entries, Decides (function entry)) : Decides (entries.mapM function) := by
  induction entries with
  | nil => exact .ok []
  | cons entry entries induction =>
      rw [List.forall_mem_cons] at each
      rw [List.mapM_cons]
      exact each.1.bind fun first _ => (induction each.2).bind fun rest _ => .ok (first :: rest)

end Decides

end

/-- What a path leads to, if it leads to anything, is no expression, and none is on the way. -/
def Lookup.IsKnown : Lookup → Prop
  | .found node => node.isLocallyResolved
  | .unresolved => False
  | .missing => True

/-! ## What the addresses are made of -/

namespace AddressFunction

variable {binding : Binding} {key network : String} {entry node spec subnet : Node}
  {arguments entries : List Node} {number needed index : Nat} {indices : List Nat}
  {range : AddressRange} {ranges : List AddressRange}

/-- The node is an integer that counts something. -/
def IsCount (node : Node) (number : Nat) : Prop :=
  ∃ word : Int64, node.value = .integer word ∧ word.toInt = number

/-- The node is a text that is read as the range. -/
def WritesRange (spec : Node) (range : AddressRange) : Prop :=
  ∃ text, spec.value = .text text ∧ AddressRange.ofText text = .ok range

/-- What the static ranges of a subnet are written in. -/
def staticSpecs (subnet : Node) : List Node :=
  match subnet.get? "static" with
  | none => []
  | some statics => Arguments.flatten [statics]

theorem IsCount.lt (counts : IsCount node number) : number < 2 ^ 63 := by
  rcases counts with ⟨word, -, exact⟩
  have less := word.toInt_lt
  omega

/-- An integer is a number that is not negative, or it counts nothing. -/
theorem isCount_iff {word : Int64} (written : node.value = .integer word) :
    IsCount node number ↔ 0 ≤ word ∧ word.toInt.toNat = number := by
  unfold IsCount
  rw [Int64.le_iff_toInt_le, Int64.toInt_zero]
  constructor
  · rintro ⟨word', written', exact⟩
    cases written.symm.trans written'
    omega
  · rintro ⟨positive, rfl⟩
    exact ⟨word, written, by omega⟩

theorem not_isCount (other : ∀ word, node.value ≠ .integer word) : ¬ IsCount node number :=
  fun ⟨word, written, _⟩ => other word written

theorem indexArgument_eq_ok_iff : indexArgument entry = .ok number ↔ IsCount entry number := by
  unfold indexArgument
  split
  · rename_i word written
    rw [isCount_iff written]
    split
    · rename_i positive
      rw [Except.ok.injEq, and_iff_right positive]
    · rename_i negative
      exact iff_of_false nofun fun counts => negative counts.1
  · rename_i other
    exact iff_of_false nofun (not_isCount other)

theorem decides_indexArgument (entry : Node) : Decides (indexArgument entry) := by
  unfold indexArgument
  split
  · split
    · exact .ok _
    · exact .refuse _
  · exact .refuse _

/-- What is nearest is there as it is, or there is nothing. -/
theorem nearest_of_known (known : (binding.findReference [key]).IsKnown) :
    (∃ node, binding.findReference [key] = .found node ∧ nearest binding key = .ok node) ∨
      binding.findReference [key] = .missing ∧ nearest binding key = refuse (.staticNothing key) := by
  unfold nearest
  cases found : binding.findReference [key] with
  | found node =>
      rw [found] at known
      exact .inl ⟨node, rfl, if_pos known⟩
  | unresolved =>
      rw [found] at known
      exact known.elim
  | missing => exact .inr ⟨rfl, rfl⟩

theorem nearest_eq_ok_iff (known : (binding.findReference [key]).IsKnown) :
    nearest binding key = .ok node ↔ binding.findReference [key] = .found node := by
  rcases nearest_of_known known with ⟨other, found, near⟩ | ⟨missing, refused⟩
  · rw [found, near, Except.ok.injEq, Lookup.found.injEq]
  · rw [missing, refused]
    exact iff_of_false nofun nofun

theorem decides_nearest (known : (binding.findReference [key]).IsKnown) :
    Decides (nearest binding key) := by
  rcases nearest_of_known known with ⟨other, -, near⟩ | ⟨-, refused⟩
  · rw [near]
    exact .ok _
  · rw [refused]
    exact .refuse _

theorem instancesNeeded_eq_ok_iff (known : (binding.findReference ["instances"]).IsKnown) :
    instancesNeeded binding = .ok needed ↔
      ∃ node, binding.findReference ["instances"] = .found node ∧ IsCount node needed := by
  unfold instancesNeeded
  constructor
  · intro ends
    rcases ok_of_bind ends with ⟨node, near, ends⟩
    refine ⟨node, (nearest_eq_ok_iff known).mp near, ?_⟩
    split at ends
    · rename_i word written
      split at ends
      · rename_i positive
        exact (isCount_iff written).mpr ⟨positive, Except.ok.inj ends⟩
      · cases ends
    · cases ends
  · rintro ⟨node, found, counts⟩
    rw [(nearest_eq_ok_iff known).mpr found]
    have counted := counts
    rcases counted with ⟨word, written, -⟩
    rcases (isCount_iff written).mp counts with ⟨positive, exact⟩
    simp only [bind, Except.bind, written, if_pos positive, exact]
    rfl

theorem decides_instancesNeeded (known : (binding.findReference ["instances"]).IsKnown) :
    Decides (instancesNeeded binding) := by
  refine (decides_nearest known).bind fun node _ => ?_
  split
  · split
    · exact .ok _
    · exact .refuse _
  · exact .refuse _

theorem networkName_eq_ok_iff (known : (binding.findReference ["name"]).IsKnown) :
    networkName binding = .ok network ↔
      ∃ node, binding.findReference ["name"] = .found node ∧ node.value = .text network := by
  unfold networkName
  constructor
  · intro ends
    rcases ok_of_bind ends with ⟨node, near, ends⟩
    refine ⟨node, (nearest_eq_ok_iff known).mp near, ?_⟩
    split at ends
    · rename_i written
      cases ends
      exact written
    · cases ends
  · rintro ⟨node, found, written⟩
    rw [(nearest_eq_ok_iff known).mpr found]
    simp only [bind, Except.bind, written]
    rfl

theorem decides_networkName (known : (binding.findReference ["name"]).IsKnown) :
    Decides (networkName binding) := by
  refine (decides_nearest known).bind fun node _ => ?_
  split
  · exact .ok _
  · exact .refuse _

/-! ## Static ranges -/

theorem staticRange_eq_ok_iff (resolved : spec.isLocallyResolved) :
    staticRange spec = .ok range ↔ WritesRange spec range := by
  unfold staticRange WritesRange
  rw [resolved]
  simp only [Bool.not_true, Bool.false_eq_true, if_false]
  split
  · rename_i text written
    rw [written]
    cases read : AddressRange.ofText text <;> simp [read, refuse]
  · rename_i other
    exact iff_of_false nofun fun ⟨text, written, _⟩ => other text written

theorem decides_staticRange (resolved : spec.isLocallyResolved) : Decides (staticRange spec) := by
  unfold staticRange
  rw [resolved]
  simp only [Bool.not_true, Bool.false_eq_true, if_false]
  split
  · split
    · exact .ok _
    · exact .refuse _
  · exact .refuse _

theorem subnetRanges_eq (resolved : subnet.isLocallyResolved) :
    subnetRanges subnet = (staticSpecs subnet).mapM staticRange := by
  unfold subnetRanges staticSpecs
  rw [resolved]
  cases subnet.get? "static" <;> rfl

/-- The subnets are there, or there are none, and nothing of their static ranges is an expression. -/
structure SubnetsKnown (lookup : Lookup) : Prop where
  there : lookup.IsKnown
  resolved : ∀ node subnets, lookup = .found node → node.value = .list subnets →
    ∀ subnet ∈ subnets, subnet.isLocallyResolved
  ranges : ∀ node subnets, lookup = .found node → node.value = .list subnets →
    ∀ spec ∈ subnets.flatMap staticSpecs, spec.isLocallyResolved

/-- The ranges of a network are those of all its subnets in a row. -/
theorem staticRanges_eq
    (known : SubnetsKnown (binding.findFromRoot ["networks", network, "subnets"]))
    (found : binding.findFromRoot ["networks", network, "subnets"] = .found node)
    (written : node.value = .list entries) :
    staticRanges binding network = (entries.flatMap staticSpecs).mapM staticRange := by
  have resolved := known.resolved node entries found written
  rw [mapM_flatMap fun subnet member => subnetRanges_eq (resolved subnet member), staticRanges, found]
  simp only [written]
  cases entries.mapM subnetRanges <;> rfl

theorem staticRanges_eq_ok_iff
    (known : SubnetsKnown (binding.findFromRoot ["networks", network, "subnets"])) :
    staticRanges binding network = .ok ranges ↔ ∃ node entries,
      binding.findFromRoot ["networks", network, "subnets"] = .found node ∧
      node.value = .list entries ∧
      List.Forall₂ WritesRange (entries.flatMap staticSpecs) ranges := by
  have writes {node entries}
      (found : binding.findFromRoot ["networks", network, "subnets"] = .found node)
      (written : node.value = .list entries) : staticRanges binding network = .ok ranges ↔
        List.Forall₂ WritesRange (entries.flatMap staticSpecs) ranges := by
    rw [staticRanges_eq known found written]
    exact mapM_eq_ok_iff fun spec member _ =>
      staticRange_eq_ok_iff (known.ranges node entries found written spec member)
  constructor
  · intro ends
    have there := ends
    unfold staticRanges at there
    split at there
    · cases there
    · cases there
    · rename_i node found
      split at there
      · rename_i entries written
        exact ⟨node, entries, found, written, (writes found written).mp ends⟩
      · split at there <;> cases there
  · rintro ⟨node, entries, found, written, all⟩
    exact (writes found written).mpr all

theorem decides_staticRanges
    (known : SubnetsKnown (binding.findFromRoot ["networks", network, "subnets"])) :
    Decides (staticRanges binding network) := by
  cases found : binding.findFromRoot ["networks", network, "subnets"] with
  | unresolved =>
      have there := known.there
      rw [found] at there
      exact there.elim
  | missing =>
      rw [staticRanges, found]
      exact .refuse _
  | found node =>
      cases written : node.value with
      | list entries =>
          rw [staticRanges_eq known found written]
          exact .mapM fun spec member =>
            decides_staticRange (known.ranges node entries found written spec member)
      | _ =>
          have there := known.there
          rw [found] at there
          have there : node.isLocallyResolved = true := there
          simp only [staticRanges, found, written, there, if_true]
          exact .refuse _

/-! ## Picked addresses -/

/-- The ranges that the subnets of the named network have. -/
def StaticRanges (binding : Binding) (ranges : List AddressRange) : Prop :=
  ∃ name network node subnets, binding.findReference ["name"] = .found name ∧
    name.value = .text network ∧
    binding.findFromRoot ["networks", network, "subnets"] = .found node ∧
    node.value = .list subnets ∧ List.Forall₂ WritesRange (subnets.flatMap staticSpecs) ranges

/-- The node is the address at an index of all addresses of the ranges in a row. -/
def IsPicked (source : Option String) (ranges : List AddressRange) (index : Nat) (entry : Node) :
    Prop :=
  ∃ address, (ranges.flatMap AddressRange.addresses)[index]? = some address ∧
    entry = .ofSource source (.text address.print)

/-- There are as many entries as instances, and each of them is picked by the index at its place. -/
structure Picks (binding : Binding) (arguments : List Node) (indices : List Nat)
    (ranges : List AddressRange) (entries : List Node) : Prop where
  counted : List.Forall₂ IsCount (Arguments.flatten arguments) indices
  instances : ∃ node, binding.findReference ["instances"] = .found node ∧ IsCount node entries.length
  written : StaticRanges binding ranges
  enough : entries.length ≤ indices.length
  picked : List.Forall₂ (IsPicked binding.source ranges) (indices.take entries.length) entries

/-- Nothing that the addresses of instances depend on is an expression. -/
structure StaticsKnown (binding : Binding) : Prop where
  instances : (binding.findReference ["instances"]).IsKnown
  name : (binding.findReference ["name"]).IsKnown
  subnets : ∀ node network, binding.findReference ["name"] = .found node →
    node.value = .text network →
    SubnetsKnown (binding.findFromRoot ["networks", network, "subnets"])

theorem staticAddress_eq_ok_iff (small : index < 2 ^ 63) :
    staticAddress binding network ranges index = .ok entry ↔
      IsPicked binding.source ranges index entry := by
  have within : index < Family.six.size - 1 := Nat.lt_trans small (by decide)
  unfold staticAddress IsPicked
  rw [AddressRange.addressAt?_eq ranges within]
  cases (ranges.flatMap AddressRange.addresses)[index]? with
  | none => exact iff_of_false nofun nofun
  | some address => simp [eq_comm]

theorem lt_of_counts (counts : List.Forall₂ IsCount entries indices) :
    ∀ index ∈ indices, index < 2 ^ 63 := by
  induction counts with
  | nil => exact fun _ member => nomatch member
  | cons here _ induction => exact List.forall_mem_cons.mpr ⟨here.lt, induction⟩

theorem mapM_indexArgument_eq_ok_iff :
    arguments.mapM indexArgument = .ok indices ↔ List.Forall₂ IsCount arguments indices :=
  mapM_eq_ok_iff fun _ _ _ => indexArgument_eq_ok_iff

theorem mapM_staticAddress_eq_ok_iff (counts : List.Forall₂ IsCount arguments indices) :
    (indices.take needed).mapM (staticAddress binding network ranges) = .ok entries ↔
      List.Forall₂ (IsPicked binding.source ranges) (indices.take needed) entries :=
  mapM_eq_ok_iff fun index member _ =>
    staticAddress_eq_ok_iff (lt_of_counts counts index (List.mem_of_mem_take member))

theorem staticAddresses_eq_ok_iff (known : StaticsKnown binding) {value : Value} :
    staticAddresses binding arguments = .ok value ↔ ∃ indices ranges entries,
      value = .list entries ∧ Picks binding arguments indices ranges entries := by
  unfold staticAddresses
  constructor
  · intro ends
    rcases ok_of_bind ends with ⟨indices, counts, ends⟩
    rcases ok_of_bind ends with ⟨needed, instances, ends⟩
    rcases ok_of_bind ends with ⟨network, named, ends⟩
    rcases ok_of_bind ends with ⟨ranges, written, ends⟩
    rw [mapM_indexArgument_eq_ok_iff] at counts
    rw [instancesNeeded_eq_ok_iff known.instances] at instances
    rw [networkName_eq_ok_iff known.name] at named
    rcases named with ⟨name, found, text⟩
    rw [staticRanges_eq_ok_iff (known.subnets name network found text)] at written
    rcases written with ⟨node, subnets, written⟩
    split at ends
    · cases ends
    · rename_i enough
      rcases ok_of_bind ends with ⟨entries, picked, ends⟩
      cases ends
      rw [mapM_staticAddress_eq_ok_iff counts] at picked
      have length := picked.length_eq
      rw [List.length_take, Nat.min_eq_left (Nat.le_of_not_lt enough)] at length
      subst length
      exact ⟨indices, ranges, entries, rfl, counts, instances,
        ⟨name, network, node, subnets, found, text, written⟩, Nat.le_of_not_lt enough, picked⟩
  · rintro ⟨indices, ranges, entries, rfl, counts, instances,
      ⟨name, network, node, subnets, found, text, written⟩, enough, picked⟩
    rw [mapM_indexArgument_eq_ok_iff.mpr counts,
      (instancesNeeded_eq_ok_iff known.instances).mpr instances,
      (networkName_eq_ok_iff known.name).mpr ⟨name, found, text⟩]
    simp only [bind, Except.bind]
    rw [(staticRanges_eq_ok_iff (known.subnets name network found text)).mpr
      ⟨node, subnets, written⟩]
    simp only [if_neg (Nat.not_lt.mpr enough), (mapM_staticAddress_eq_ok_iff counts).mpr picked]
    rfl

theorem decides_staticAddresses (known : StaticsKnown binding) :
    Decides (staticAddresses binding arguments) := by
  refine (Decides.mapM fun entry _ => decides_indexArgument entry).bind fun indices _ => ?_
  refine (decides_instancesNeeded known.instances).bind fun needed _ => ?_
  refine (decides_networkName known.name).bind fun network named => ?_
  rcases (networkName_eq_ok_iff known.name).mp named with ⟨name, found, text⟩
  refine (decides_staticRanges (known.subnets name network found text)).bind fun ranges _ => ?_
  split
  · exact .refuse _
  · refine (Decides.mapM fun index _ => ?_).bind fun entries _ => .ok _
    unfold staticAddress
    split
    · exact .ok _
    · exact .refuse _

end AddressFunction

namespace Expression

open AddressFunction

theorem called_eq_value_iff {source : Option String} {report : Report}
    {result : Except Obstacle Value} {value : Value} :
    called source report result = .value (.ofSource source value) report ↔ result = .ok value := by
  cases result with
  | ok value' => simp [called, Node.ofSource]
  | error obstacle => cases obstacle <;> simp [called]

variable {evaluator : Evaluator} {binding : Binding} {arguments : List Expression}
  {nodes : List Node} {report : Report}

theorem evaluateWith_static
    (given : operands evaluator binding {} arguments = .ok (.ok (nodes, report))) :
    evaluateWith evaluator binding (.call (.reference ["static_ips"]) arguments) =
      .ok (called binding.source (report.join {})
        (if nodes = [] then refuse (.argumentCount .staticIps 0)
          else staticAddresses binding nodes)) := by
  refine evaluateWith_called rfl given ?_
  cases nodes with
  | nil => rfl
  | cons node nodes =>
      have one : 1 ≤ (node :: nodes).length := Nat.succ_le_succ (Nat.zero_le _)
      have enough : Arguments.checkCount .staticIps (node :: nodes) = .ok () :=
        if_pos (decide_eq_true one)
      rw [Builtin.apply, enough]
      rfl

/-- An index finds an address in some ranges as if they were one list of addresses, each range from
its first to its last one. So the addresses of instances are those at the indices, one for each
instance, or there are none of them. Words suffice: what is taken off an index is never more than the
index, and no address is looked for behind the last one of a range. -/
theorem static_addresses
    (given : operands evaluator binding {} arguments = .ok (.ok (nodes, report)))
    (known : StaticsKnown binding) :
    let outcome := evaluateWith evaluator binding (.call (.reference ["static_ips"]) arguments)
    let value (entries : List Node) :=
      Outcome.value (.ofSource binding.source (.list entries)) (report.join {})
    (∀ (ranges : List AddressRange) (index : Nat), index < 2 ^ 63 →
      let all := ranges.flatMap AddressRange.addresses
      let found := AddressRange.addressAt? ranges index
      found = all[index]? ∧ (found = none ↔ all.length ≤ index) ∧
      (∀ address, found = some address → ∃ range ∈ ranges, address ∈ range.addresses) ∧
      AddressRange.addressAtWord? ranges (.ofNat 128 index) = some found) ∧
    (∀ range : AddressRange,
      range.addresses.Pairwise (fun before after => before.value < after.value) ∧
      ∀ address, address ∈ range.addresses ↔ address.family = range.family ∧
        range.first ≤ address.value ∧ address.value ≤ range.last) ∧
    (∀ entries, outcome = .ok (value entries) ↔
      nodes ≠ [] ∧ ∃ indices ranges, Picks binding nodes indices ranges entries) ∧
    ((∃ entries, outcome = .ok (value entries)) ∨
      ∃ issue, outcome = .ok (.failed { report.join {} with issue := some issue })) := by
  intro outcome value
  refine ⟨fun ranges index small => ?_, fun range => ?_, ?_⟩
  · have within : index < Family.six.size - 1 := Nat.lt_trans small (by decide)
    have finds := AddressRange.addressAt?_eq ranges within
    refine ⟨finds, ?_, fun address found => ?_, ?_⟩
    · rw [finds, List.getElem?_eq_none_iff]
    · rw [finds] at found
      exact List.mem_flatMap.mp (List.mem_of_getElem? found)
    · have same : (BitVec.ofNat 128 index).toNat = index :=
        (BitVec.toNat_ofNat _ _).trans (Nat.mod_eq_of_lt (Nat.lt_trans small (by decide)))
      rw [AddressRange.addressAtWord?_eq, same]
  · exact ⟨range.addresses_ascending, fun address => AddressRange.mem_addresses⟩
  · have computed : outcome = _ := evaluateWith_static given
    by_cases none : nodes = []
    · rw [if_pos none] at computed
      rw [computed]
      refine ⟨fun entries => ?_, .inr ⟨_, rfl⟩⟩
      exact iff_of_false nofun fun picks => picks.1 none
    · rw [if_neg none] at computed
      have decides : Decides (staticAddresses binding nodes) := decides_staticAddresses known
      refine ⟨fun entries => ?_, ?_⟩
      · rw [computed, Except.ok.injEq, called_eq_value_iff, staticAddresses_eq_ok_iff known,
          and_iff_right none]
        simp only [Value.list.injEq, exists_eq_left']
      · rw [computed]
        cases result : staticAddresses binding nodes with
        | ok made =>
            rcases (staticAddresses_eq_ok_iff known).mp result with ⟨_, _, entries, rfl, -⟩
            exact .inl ⟨entries, rfl⟩
        | error obstacle =>
            cases obstacle with
            | unresolved => exact absurd result decides
            | issue cause => exact .inr ⟨cause, rfl⟩

/-- The indices go across a range of one family and the whole space of the other one. -/
theorem static_addresses_mixed :
    let text (content : String) := Node.ofSource none (.text content)
    let statics := Node.ofSource none (.list [text "10.0.0.10 - 10.0.0.12", text "::/0"])
    let subnets := Node.ofSource none (.list [.ofSource none (.map [("static", statics)])])
    let networks := Node.ofSource none (.map [("net", .ofSource none (.map [("subnets", subnets)]))])
    let instances := Node.ofSource none (.integer 2)
    let fields := [("instances", instances), ("name", text "net"), ("networks", networks)]
    evaluateWith (evaluate 0) { scopes := [fields] }
      (.call (.reference ["static_ips"]) [.integer 4, .integer 0]) =
        .ok (.value (.ofSource none (.list [text "::1", text "10.0.0.10"])) {}) := by
  intro text statics subnets networks instances fields
  let binding : Binding := { scopes := [fields] }
  have name : binding.findReference ["name"] = .found (text "net") := rfl
  have found : binding.findFromRoot ["networks", "net", "subnets"] = .found subnets := rfl
  have subnetsKnown : SubnetsKnown (binding.findFromRoot ["networks", "net", "subnets"]) := {
    there := rfl
    resolved := by
      rw [found]
      rintro _ _ ⟨⟩ ⟨⟩
      exact List.forall_mem_singleton.mpr rfl
    ranges := by
      rw [found]
      rintro _ _ ⟨⟩ ⟨⟩
      exact List.forall_mem_cons.mpr ⟨rfl, List.forall_mem_singleton.mpr rfl⟩ }
  have known : StaticsKnown binding := {
    instances := rfl
    name := rfl
    subnets := by
      rw [name]
      rintro _ _ ⟨⟩ ⟨⟩
      exact subnetsKnown }
  have given : operands (evaluate 0) binding {} [.integer 4, .integer 0] =
    .ok (.ok ([.ofSource none (.integer 4), .ofSource none (.integer 0)], {})) := rfl
  let job : AddressRange := ⟨.four, 167772170, 167772172, by decide, by decide⟩
  let whole : AddressRange := .network ⟨.six, 0, by decide⟩ 0 (by decide)
  have ends : AddressRange.ofText "10.0.0.10 - 10.0.0.12" = .ok job := (if_neg (by simp)).trans rfl
  have network : AddressRange.ofText "::/0" = .ok whole := (if_pos (by simp)).trans rfl
  have picks := static_addresses given known
  have first : AddressRange.addressAt? [job, whole] 4 = some ⟨.six, 1, by decide⟩ := by decide
  have second : AddressRange.addressAt? [job, whole] 0 =
    some ⟨.four, 167772170, by decide⟩ := by decide
  rw [(picks.1 [job, whole] 4 (by decide)).1] at first
  rw [(picks.1 [job, whole] 0 (by decide)).1] at second
  refine (picks.2.2.1 [text "::1", text "10.0.0.10"]).mpr ⟨by simp, [4, 0], [job, whole], ?_⟩
  exact {
    counted := .cons ⟨4, rfl, rfl⟩ (.cons ⟨0, rfl, rfl⟩ .nil)
    instances := ⟨instances, rfl, 2, rfl, rfl⟩
    written := ⟨_, _, _, _, name, rfl, found, rfl,
      .cons ⟨_, rfl, ends⟩ (.cons ⟨_, rfl, network⟩ .nil)⟩
    enough := by decide
    picked := .cons ⟨_, first, rfl⟩ (.cons ⟨_, second, rfl⟩ .nil) }

end Expression

end Stencil
