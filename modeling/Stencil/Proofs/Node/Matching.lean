import Mathlib.Data.List.Forall2
import Mathlib.Data.List.Perm.Subperm
import Stencil.Proofs.Node.Comparison
import Stencil.Proofs.Node.Sorting

namespace Stencil

/-! Tables that have the same keys with related values under them, in any order. Maps are compared
in this way, and so are lists in which every entry has a name. -/

namespace Table

variable {α β γ : Type}

/-- Both tables are of one size, and every value of the first one is related to the value under
its key in the second. -/
structure Matches (related : α → β → Prop) (left : List (String × α)) (right : List (String × β)) :
    Prop where
  length : left.length = right.length
  found : ∀ field ∈ left, ∃ other, right.lookup field.1 = some other ∧ related field.2 other

theorem mem_keys_iff {key : String} {table : List (String × α)} :
    key ∈ table.map Prod.fst ↔ (table.lookup key).isSome := by
  rw [List.lookup_isSome_iff, List.mem_map]
  exact exists_congr fun field => and_congr_right fun _ => by rw [beq_iff_eq, eq_comm]

theorem lookup_eq_some_iff {key : String} {value : α} {table : List (String × α)}
    (distinct : KeysDistinct table) :
    table.lookup key = some value ↔ (key, value) ∈ table := by
  refine ⟨member_of_lookup, fun member => ?_⟩
  induction table with
  | nil => cases member
  | cons field table induction =>
      rw [KeysDistinct, List.map_cons, List.nodup_cons] at distinct
      rw [List.lookup_cons]
      rcases List.mem_cons.mp member with rfl | member
      · rw [beq_self_eq_true]
      · have different : (key == field.1) = false := by
          rw [beq_eq_false_iff_ne]
          rintro rfl
          exact distinct.1 (List.mem_map.mpr ⟨_, member, rfl⟩)
        rw [different]
        exact induction distinct.2 member

namespace Matches

variable {related : α → β → Prop} {left : List (String × α)} {right : List (String × β)}

/-- A table with a partner for each field of a table of its size has no other keys. -/
theorem keys (matches' : Matches related left right) (distinct : KeysDistinct left) :
    (left.map Prod.fst).Perm (right.map Prod.fst) := by
  have below : left.map Prod.fst ⊆ right.map Prod.fst := by
    intro key member
    rcases List.mem_map.mp member with ⟨field, held, rfl⟩
    rcases matches'.found field held with ⟨other, there, _⟩
    exact mem_keys_iff.mpr (there ▸ rfl)
  exact (List.subperm_of_subset distinct below).perm_of_length_le (by simp [matches'.length])

theorem keysDistinct (matches' : Matches related left right) (distinct : KeysDistinct left) :
    KeysDistinct right :=
  (matches'.keys distinct).nodup_iff.mp distinct

theorem lookup_of_right (matches' : Matches related left right) (distinct : KeysDistinct left)
    {key : String} {other : β} (held : right.lookup key = some other) :
    ∃ value, left.lookup key = some value ∧ related value other := by
  have member : key ∈ left.map Prod.fst :=
    (matches'.keys distinct).mem_iff.mpr (mem_keys_iff.mpr (held ▸ rfl))
  rcases Option.isSome_iff_exists.mp (mem_keys_iff.mp member) with ⟨value, there⟩
  rcases matches'.found _ (member_of_lookup there) with ⟨other', held', both⟩
  cases held.symm.trans held'
  exact ⟨value, there, both⟩

theorem lookup_eq_none_iff (matches' : Matches related left right) (distinct : KeysDistinct left)
    (key : String) : left.lookup key = none ↔ right.lookup key = none := by
  have same := (matches'.keys distinct).mem_iff (a := key)
  rw [mem_keys_iff, mem_keys_iff] at same
  rw [← Option.not_isSome_iff_eq_none, ← Option.not_isSome_iff_eq_none]
  exact not_congr same

theorem imp {related' : α → β → Prop} (matches' : Matches related left right)
    (implies : ∀ field ∈ left, ∀ other, related field.2 other → related' field.2 other) :
    Matches related' left right where
  length := matches'.length
  found field member := by
    rcases matches'.found field member with ⟨other, there, both⟩
    exact ⟨other, there, implies field member _ both⟩

theorem congr {related' : α → β → Prop}
    (same : ∀ field ∈ left, ∀ other ∈ right, related field.2 other.2 ↔ related' field.2 other.2) :
    Matches related left right ↔ Matches related' left right := by
  refine ⟨fun matches' => ⟨matches'.length, fun field member => ?_⟩,
    fun matches' => ⟨matches'.length, fun field member => ?_⟩⟩
  all_goals rcases matches'.found field member with ⟨other, there, both⟩
  · exact ⟨other, there, (same field member _ (member_of_lookup there)).mp both⟩
  · exact ⟨other, there, (same field member _ (member_of_lookup there)).mpr both⟩

theorem refl {related : α → α → Prop} (distinct : KeysDistinct left)
    (self : ∀ field ∈ left, related field.2 field.2) : Matches related left left where
  length := rfl
  found field member := ⟨field.2, (lookup_eq_some_iff distinct).mpr member, self field member⟩

theorem symm (matches' : Matches related left right) (distinct : KeysDistinct left) :
    Matches (flip related) right left where
  length := matches'.length.symm
  found _ member :=
    have held := (lookup_eq_some_iff (matches'.keysDistinct distinct)).mpr member
    matches'.lookup_of_right distinct held

theorem trans {related' : β → γ → Prop} {last : List (String × γ)}
    (first : Matches related left right) (second : Matches related' right last) :
    Matches (fun value other => ∃ middle, related value middle ∧ related' middle other)
      left last where
  length := first.length.trans second.length
  found field member := by
    rcases first.found field member with ⟨middle, there, both⟩
    rcases second.found _ (member_of_lookup there) with ⟨other, held, both'⟩
    exact ⟨other, held, middle, both, both'⟩

end Matches

/-! Tables match if and only if they are the same in the order of their keys. -/

/-- The table with other values under its keys. -/
def mapped (change : α → β) (table : List (String × α)) : List (String × β) :=
  table.map fun field => (field.1, change field.2)

theorem lookup_mapped (change : α → β) (key : String) (table : List (String × α)) :
    (mapped change table).lookup key = (table.lookup key).map change :=
  lookup_map change key table

theorem keysDistinct_mapped {change : α → β} {table : List (String × α)} :
    KeysDistinct (mapped change table) ↔ KeysDistinct table := by
  rw [KeysDistinct, mapped, List.map_map, KeysDistinct]
  rfl

theorem sorted_mapped_iff {left : List (String × α)} {right : List (String × β)}
    (distinct : KeysDistinct left) (distinct' : KeysDistinct right) {change : α → γ}
    {change' : β → γ} :
    sorted (mapped change left) = sorted (mapped change' right) ↔
      Matches (fun value other => change value = change' other) left right := by
  constructor
  · intro same
    refine ⟨?_, fun field member => ?_⟩
    · have length := congrArg List.length same
      simpa [mapped] using length
    · have there : (mapped change' right).lookup field.1 = some (change field.2) := by
        rw [← lookup_sorted, ← same, lookup_sorted, lookup_mapped,
          (lookup_eq_some_iff distinct).mpr member, Option.map_some]
      rw [lookup_mapped, Option.map_eq_some_iff] at there
      rcases there with ⟨other, held, equal⟩
      exact ⟨other, held, equal.symm⟩
  · intro matches'
    refine sorted_eq_iff.mpr fun key => ?_
    rw [under_of_keysDistinct (keysDistinct_mapped.mpr distinct),
      under_of_keysDistinct (keysDistinct_mapped.mpr distinct'), lookup_mapped, lookup_mapped]
    cases held : right.lookup key with
    | none => rw [(matches'.lookup_eq_none_iff distinct key).mpr held]; rfl
    | some other =>
        rcases matches'.lookup_of_right distinct held with ⟨value, there, equal⟩
        rw [there, Option.map_some, Option.map_some, Option.map_some, equal]
        rfl

end Table

/-! Lists side by side, as `Table.Matches` is for tables. -/

section
variable {α β γ : Type} {related : α → β → Prop} {related' : β → γ → Prop}

theorem forall₂_imp_mem {related' : α → β → Prop} {lefts : List α} {rights : List β}
    (both : List.Forall₂ related lefts rights)
    (implies : ∀ left ∈ lefts, ∀ right, related left right → related' left right) :
    List.Forall₂ related' lefts rights :=
  ((List.forall₂_and_left _ _).mpr ⟨implies, both⟩).imp fun _ right both => both.1 right both.2

theorem forall₂_congr_mem {related' : α → β → Prop} {lefts : List α} {rights : List β}
    (same : ∀ left ∈ lefts, ∀ right ∈ rights, related left right ↔ related' left right) :
    List.Forall₂ related lefts rights ↔ List.Forall₂ related' lefts rights := by
  induction lefts generalizing rights with
  | nil => rw [List.forall₂_nil_left_iff, List.forall₂_nil_left_iff]
  | cons left lefts induction =>
      cases rights with
      | nil => rw [List.forall₂_nil_right_iff, List.forall₂_nil_right_iff]
      | cons right rights =>
          rw [List.forall₂_cons, List.forall₂_cons,
            same left List.mem_cons_self right List.mem_cons_self, induction]
          exact fun left member right member' =>
            same left (List.mem_cons_of_mem _ member) right (List.mem_cons_of_mem _ member')

theorem forall₂_comp {firsts : List α} {seconds : List β} {thirds : List γ}
    (both : List.Forall₂ related firsts seconds) (both' : List.Forall₂ related' seconds thirds) :
    List.Forall₂ (Relation.Comp related related') firsts thirds := by
  induction both generalizing thirds with
  | nil =>
      cases both'
      exact .nil
  | cons here _ induction =>
      rcases both' with _ | ⟨there, both'⟩
      exact .cons ⟨_, here, there⟩ (induction both')

end

end Stencil
