import Mathlib.Data.Fintype.Pigeonhole
import Mathlib.Data.Set.Finite.Basic
import Mathlib.Logic.Relation
import Stencil.Proofs.Expression.RoundTrip
import Stencil.Proofs.Node.Comparison

namespace Stencil

open Relation

/-! A map whose fields are scalars and references to fields. From every key a chain of references
starts. It ends at a scalar, or it is stuck: it runs into a key that the map does not have, or
into a circle. -/

/-! ## Keys and references -/

/-- A word that is read as a reference wherever it stands. -/
def IsKey (key : String) : Prop :=
  isName key = true ∧
    key ∉ ["nil", "true", "false", "merge", "auto", "prefer", "lambda", "map"]

instance (key : String) : Decidable (IsKey key) := inferInstanceAs (Decidable (_ ∧ _))

/-- The text of a reference to a key. -/
def referenceText (key : String) : String := "(( " ++ key ++ " ))"

theorem IsKey.isLegible {key : String} (legible : IsKey key) :
    (Expression.reference [key]).IsLegible :=
  isPath_of_isKeyPath ⟨legible.1, nofun⟩

theorem print_key (key : String) : (Expression.reference [key]).print = key := by
  simp [Expression.print, Expression.pathText]

theorem IsKey.parse {key : String} (legible : IsKey key) (place : List String) :
    Expression.parse key place = .ok (.reference [key]) := by
  have written : (Expression.reference [key]).written false =
      [Lexeme.sign (.identifier key) false] := by
    rw [Expression.written, Written.path_of_key legible.1, Written.keys,
      Written.step_of_name legible.1]
    rfl
  have stands : (Expression.reference [key]).StandsAlone := by
    refine .inr fun looks => ?_
    have word := looks.1
    rw [written] at word
    cases word
    exact legible.2 (by decide)
  have layered : (Expression.reference [key]).IsLayered place := by
    rintro _ ⟨⟩ reserved
    exact legible.2 (List.mem_of_mem_take (i := 5) reserved)
  have parses := Expression.parse_print_of_isLayered legible.isLegible stands layered
  rwa [print_key] at parses

theorem IsKey.embedded {key : String} (legible : IsKey key) :
    Text.embedded? (referenceText key) = some key := by
  have trimmed := Expression.print_trimmed legible.isLegible
  rw [print_key] at trimmed
  exact Text.embedded?_of_trimmed trimmed

theorem referenceText_injective {key key' : String}
    (same : referenceText key = referenceText key') : key = key' := by
  have same := congrArg String.toList same
  simp only [referenceText, String.toList_append, List.append_assoc] at same
  have same := List.append_cancel_right (List.append_cancel_left same)
  exact String.toList_inj.mp same

theorem isSome_embedded (key : String) : (Text.embedded? (referenceText key)).isSome := by
  have characters : (referenceText key).toList =
      '(' :: '(' :: ' ' :: (key.toList ++ [' ', ')', ')']) := by
    simp [referenceText]
  unfold Text.embedded?
  rw [characters]
  simp [Text.closing?]

/-- A value that holds nothing and is no expression, lambda or NaN. -/
def Value.isScalar : Value → Bool
  | .null | .boolean _ | .integer _ => true
  | .decimal value => !value.isNaN
  | .text words => (Text.embedded? words).isNone
  | _ => false

/-! ## Chains -/

namespace Chain

variable {fields : List (String × Node)} {key next last : String} {length : Nat} {node : Node}

/-- The field holds a reference to the next key. -/
def Names (fields : List (String × Node)) (key next : String) : Prop :=
  ∃ node, fields.lookup key = some node ∧ node.value = .text (referenceText next)

/-- The chain from the key has so many references and ends at the scalar. -/
inductive Reaches (fields : List (String × Node)) : String → Nat → Node → Prop where
  | scalar {key : String} {node : Node} (held : fields.lookup key = some node)
      (scalar : node.value.isScalar) : Reaches fields key 0 node
  | reference {key next : String} {length : Nat} {node : Node} (names : Names fields key next)
      (others : Reaches fields next length node) : Reaches fields key (length + 1) node

/-- The chain from the key runs into a key that is not there, or into a circle. -/
def Stuck (fields : List (String × Node)) (key : String) : Prop :=
  (∃ last, ReflTransGen (Names fields) key last ∧ fields.lookup last = none) ∨
    ∃ turn, ReflTransGen (Names fields) key turn ∧ TransGen (Names fields) turn turn

theorem Names.unique (first : Names fields key next) (second : Names fields key last) :
    next = last := by
  rcases first with ⟨node, held, same⟩
  rcases second with ⟨node', held', same'⟩
  cases held.symm.trans held'
  exact referenceText_injective (Value.text.inj (same.symm.trans same'))

theorem Names.value (names : Names fields key next) (held : fields.lookup key = some node) :
    node.value = .text (referenceText next) := by
  rcases names with ⟨node', held', same⟩
  cases held.symm.trans held'
  exact same

theorem Names.not_scalar (names : Names fields key next) (held : fields.lookup key = some node) :
    node.value.isScalar = false := by
  rw [names.value held]
  exact Option.isNone_eq_false_iff.mpr (isSome_embedded next)

theorem Reaches.of_names (names : Names fields key next) (reaches : Reaches fields key length node) :
    ∃ rest, length = rest + 1 ∧ Reaches fields next rest node := by
  cases reaches with
  | scalar held scalar =>
      rw [names.not_scalar held] at scalar
      cases scalar
  | reference names' others => exact ⟨_, rfl, names.unique names' ▸ others⟩

/-- A chain has one end. -/
theorem Reaches.unique {length' : Nat} {node' : Node} (first : Reaches fields key length node)
    (second : Reaches fields key length' node') : length = length' ∧ node = node' := by
  induction first generalizing length' with
  | scalar held scalar =>
      cases second with
      | scalar held' _ => exact ⟨rfl, Option.some.inj (held.symm.trans held')⟩
      | reference names _ =>
          rw [names.not_scalar held] at scalar
          cases scalar
  | reference names _ induction =>
      rcases second.of_names names with ⟨rest, rfl, others⟩
      rcases induction others with ⟨rfl, same⟩
      exact ⟨rfl, same⟩

/-- Along the chain the end stays and comes closer. -/
theorem Reaches.along (reaches : Reaches fields key length node)
    (chain : ReflTransGen (Names fields) key last) :
    ∃ rest ≤ length, Reaches fields last rest node := by
  induction chain with
  | refl => exact ⟨length, Nat.le_refl _, reaches⟩
  | tail _ names induction =>
      rcases induction with ⟨rest, less, others⟩
      rcases others.of_names names with ⟨shorter, rfl, behind⟩
      exact ⟨shorter, Nat.le_of_succ_le less, behind⟩

/-- What is reached from a later key is reached from an earlier one. -/
theorem Reaches.before (chain : ReflTransGen (Names fields) key last)
    (reaches : Reaches fields last length node) : ∃ more, Reaches fields key more node := by
  induction chain using ReflTransGen.head_induction_on with
  | refl => exact ⟨length, reaches⟩
  | head names _ induction =>
      rcases induction with ⟨more, others⟩
      exact ⟨more + 1, .reference names others⟩

theorem Reaches.held (reaches : Reaches fields key length node) :
    ∃ node, fields.lookup key = some node := by
  cases reaches with
  | scalar held _ => exact ⟨_, held⟩
  | reference names _ => exact ⟨_, names.choose_spec.1⟩

theorem Reaches.isScalar (reaches : Reaches fields key length node) : node.value.isScalar := by
  induction reaches with
  | scalar _ scalar => exact scalar
  | reference _ _ induction => exact induction

/-- A stuck chain ends at no scalar. -/
theorem Stuck.not_reaches (stuck : Stuck fields key) : ¬ Reaches fields key length node := by
  intro reaches
  rcases stuck with ⟨last, chain, missing⟩ | ⟨turn, chain, circle⟩
  · rcases reaches.along chain with ⟨rest, _, others⟩
    rcases others.held with ⟨held, found⟩
    rw [missing] at found
    cases found
  · rcases reaches.along chain with ⟨rest, _, others⟩
    rcases TransGen.head'_iff.mp circle with ⟨next, names, back⟩
    rcases others.of_names names with ⟨shorter, rfl, behind⟩
    rcases behind.along back with ⟨again, less, around⟩
    have same := (others.unique around).1
    omega

/-! ## Every chain ends or is stuck -/

/-- A map of scalars and references. -/
structure IsGraph (fields : List (String × Node)) : Prop where
  distinct : fieldsDistinct fields
  keys : ∀ field ∈ fields, IsKey field.1
  values : ∀ field ∈ fields, field.2.value.isScalar ∨
    ∃ key, IsKey key ∧ field.2.value = .text (referenceText key)

theorem IsGraph.legible (graph : IsGraph fields) (names : Names fields key next) : IsKey next := by
  rcases names with ⟨node, held, same⟩
  rcases graph.values _ (member_of_lookup held) with scalar | ⟨next', legible, same'⟩
  · rw [Names.not_scalar ⟨node, held, same⟩ held] at scalar
    cases scalar
  · exact Names.unique ⟨node, held, same'⟩ ⟨node, held, same⟩ ▸ legible

theorem IsGraph.lookup (graph : IsGraph fields) {field : String × Node} (member : field ∈ fields) :
    fields.lookup field.1 = some field.2 :=
  lookup_of_distinct graph.distinct member

/-- Where the chain goes on for ever it comes to a key for the second time. -/
theorem circle_of_endless (start : String)
    (endless : ∀ key, ReflTransGen (Names fields) start key → ∃ next, Names fields key next) :
    ∃ turn, ReflTransGen (Names fields) start turn ∧ TransGen (Names fields) turn turn := by
  let Passed := { key // ReflTransGen (Names fields) start key }
  have finite : Finite Passed := by
    have keys : { key | ReflTransGen (Names fields) start key } ⊆
        { key | key ∈ fields.map Prod.fst } := by
      intro key chain
      rcases endless key chain with ⟨next, node, held, _⟩
      exact List.mem_map.mpr ⟨_, member_of_lookup held, rfl⟩
    exact ((List.finite_toSet (fields.map Prod.fst)).subset keys).to_subtype
  choose next names using endless
  let walk (steps : Nat) : Passed := steps.rec ⟨start, .refl⟩ fun _ here =>
    ⟨next here.1 here.2, here.2.tail (names here.1 here.2)⟩
  have further (early steps : Nat) :
      TransGen (Names fields) (walk early).1 (walk (early + steps + 1)).1 := by
    induction steps with
    | zero => exact .single (names _ (walk early).2)
    | succ steps induction => exact induction.tail (names _ (walk (early + steps + 1)).2)
  obtain ⟨early, late, less, same⟩ : ∃ early late, early < late ∧ walk early = walk late := by
    rcases Finite.exists_ne_map_eq_of_infinite walk with ⟨first, second, different, same⟩
    rcases Nat.lt_or_gt_of_ne different with less | less
    · exact ⟨first, second, less, same⟩
    · exact ⟨second, first, less, same.symm⟩
  obtain ⟨steps, rfl⟩ := Nat.exists_eq_add_of_lt less
  have circle := further early steps
  rw [← same] at circle
  exact ⟨_, (walk early).2, circle⟩

theorem IsGraph.reaches_or_stuck (graph : IsGraph fields) (key : String) :
    (∃ length node, Reaches fields key length node) ∨ Stuck fields key := by
  by_cases endless : ∀ last, ReflTransGen (Names fields) key last → ∃ next, Names fields last next
  · exact .inr (.inr (circle_of_endless key endless))
  · push Not at endless
    rcases endless with ⟨last, chain, halt⟩
    cases held : fields.lookup last with
    | none => exact .inr (.inl ⟨last, chain, held⟩)
    | some node =>
        rcases graph.values _ (member_of_lookup held) with scalar | ⟨next, _, same⟩
        · rcases Reaches.before chain (.scalar held scalar) with ⟨length, reaches⟩
          exact .inl ⟨length, node, reaches⟩
        · exact absurd ⟨node, held, same⟩ (halt next)

/-! ## Chains that take longer -/

/-- No chain from the key reaches a scalar by so many references. -/
def Later (fields : List (String × Node)) (key : String) (length : Nat) : Prop :=
  ∀ longer node, Reaches fields key longer node → length < longer

theorem Reaches.later {less : Nat} (reaches : Reaches fields key length node)
    (more : less < length) : Later fields key less :=
  fun _ _ other => (reaches.unique other).1 ▸ more

theorem Stuck.later (stuck : Stuck fields key) : Later fields key length :=
  fun _ _ reaches => absurd reaches stuck.not_reaches

theorem Later.shorter (later : Later fields key (length + 1)) : Later fields key length :=
  fun _ _ reaches => Nat.lt_of_succ_lt (later _ _ reaches)

theorem Later.behind (later : Later fields key (length + 1)) (names : Names fields key next) :
    Later fields next length :=
  fun _ _ reaches => Nat.lt_of_succ_lt_succ (later _ _ (.reference names reaches))

theorem reaches_or_later (fields : List (String × Node)) (key : String) (length : Nat) :
    (∃ less node, Reaches fields key less node ∧ less ≤ length) ∨ Later fields key length := by
  by_cases reaches : ∃ less node, Reaches fields key less node ∧ less ≤ length
  · exact .inl reaches
  · exact .inr fun less node other => Nat.lt_of_not_le fun few => reaches ⟨less, node, other, few⟩

theorem IsGraph.names_of_later (graph : IsGraph fields) (held : fields.lookup key = some node)
    (later : Later fields key length) : ∃ next, Names fields key next := by
  rcases graph.values _ (member_of_lookup held) with scalar | ⟨next, _, same⟩
  · exact absurd (later 0 node (.scalar held scalar)) (Nat.not_lt_zero _)
  · exact ⟨next, node, held, same⟩

/-! ## The longest chain -/

/-- A chain that ends has a part of every smaller length. -/
theorem Reaches.shorter {less : Nat} (reaches : Reaches fields key length node)
    (small : less ≤ length) : ∃ later, Reaches fields later less node := by
  induction reaches with
  | @scalar key node held scalar =>
      cases Nat.le_zero.mp small
      exact ⟨key, .scalar held scalar⟩
  | @reference key next length node names others induction =>
      rcases Nat.eq_or_lt_of_le small with rfl | small
      · exact ⟨key, .reference names others⟩
      · exact induction (Nat.le_of_lt_succ small)

/-- No chain that ends has more references, and one has as many if any has one. -/
structure IsLongest (fields : List (String × Node)) (longest : Nat) : Prop where
  bound : ∀ {key length node}, Reaches fields key length node → length ≤ longest
  attained : longest = 0 ∨ ∃ key node, Reaches fields key longest node

theorem exists_longest (fields : List (String × Node)) : ∃ longest, IsLongest fields longest := by
  obtain ⟨longest, bound, attained⟩ : ∃ longest,
      (∀ key ∈ fields.map Prod.fst, ∀ length node, Reaches fields key length node →
        length ≤ longest) ∧
      (longest = 0 ∨ ∃ key node, Reaches fields key longest node) := by
    induction fields.map Prod.fst with
    | nil => exact ⟨0, nofun, .inl rfl⟩
    | cons key keys induction =>
        rcases induction with ⟨longest, bound, attained⟩
        by_cases longer : ∃ length node, Reaches fields key length node ∧ longest < length
        · rcases longer with ⟨length, node, reaches, more⟩
          refine ⟨length, List.forall_mem_cons.mpr ⟨?_, ?_⟩, .inr ⟨key, node, reaches⟩⟩
          · intro length' node' reaches'
            exact Nat.le_of_eq (reaches'.unique reaches).1
          · intro key member length' node' reaches'
            exact Nat.le_trans (bound key member length' node' reaches') (Nat.le_of_lt more)
        · refine ⟨longest, List.forall_mem_cons.mpr ⟨?_, bound⟩, attained⟩
          intro length node reaches
          exact Nat.le_of_not_lt fun more => longer ⟨length, node, reaches, more⟩
  refine ⟨longest, fun {key length node} reaches => bound key ?_ length node reaches, attained⟩
  rcases reaches.held with ⟨held, found⟩
  exact List.mem_map.mpr ⟨_, member_of_lookup found, rfl⟩

end Chain

end Stencil
