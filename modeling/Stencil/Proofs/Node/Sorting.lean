import Mathlib.Data.List.Sort
import Mathlib.Data.String.Basic
import Stencil.Table

namespace Stencil

/-! Tables with their entries in the order of the keys. Sorting keeps the order of entries with
the same key, so two tables become the same one exactly if they have the same entries under
each key. -/

namespace Table

variable {α β : Type}

/-- The entries in the order of their keys. -/
def sorted (table : List (String × α)) : List (String × α) :=
  table.insertionSort fun first second => first.1 ≤ second.1

/-- The entries under a key. -/
def under (key : String) (table : List (String × α)) : List (String × α) :=
  table.filter fun entry => entry.1 == key

theorem perm_sorted (table : List (String × α)) : (sorted table).Perm table :=
  List.perm_insertionSort _ table

theorem pairwise_sorted (table : List (String × α)) :
    (sorted table).Pairwise fun first second => first.1 ≤ second.1 := by
  have total : Std.Total fun first second : String × α => first.1 ≤ second.1 :=
    ⟨fun first second => le_total first.1 second.1⟩
  have trans : IsTrans (String × α) fun first second => first.1 ≤ second.1 :=
    ⟨fun _ _ _ => le_trans⟩
  exact List.pairwise_insertionSort _ table

theorem under_append (key : String) (first second : List (String × α)) :
    under key (first ++ second) = under key first ++ under key second :=
  List.filter_append first second

/-- Inserting an entry does not move it over another one with its key. -/
theorem under_orderedInsert (key : String) (entry : String × α) (table : List (String × α)) :
    under key (table.orderedInsert (fun first second => first.1 ≤ second.1) entry) =
      under key (entry :: table) := by
  induction table with
  | nil => rfl
  | cons other table induction =>
      by_cases before : entry.1 ≤ other.1
      · rw [List.orderedInsert_cons, if_pos before]
      · rw [List.orderedInsert_cons, if_neg before]
        unfold under at induction ⊢
        rw [List.filter_cons, induction]
        by_cases here : entry.1 = key
        · have apart : (other.1 == key) = false := by
            rw [beq_eq_false_iff_ne]
            rintro rfl
            exact before (le_of_eq here)
          simp [here, apart]
        · simp [List.filter_cons, here]

theorem under_sorted (key : String) (table : List (String × α)) :
    under key (sorted table) = under key table := by
  induction table with
  | nil => rfl
  | cons entry table induction =>
      rw [sorted, List.insertionSort_cons, under_orderedInsert]
      unfold under at induction ⊢
      rw [List.filter_cons, List.filter_cons, ← sorted, induction]

/-- Two tables in order that have the same entries under each key are the same. -/
theorem eq_of_under {first second : List (String × α)}
    (order : first.Pairwise fun first second => first.1 ≤ second.1)
    (order' : second.Pairwise fun first second => first.1 ≤ second.1)
    (same : ∀ key, under key first = under key second) : first = second := by
  induction first generalizing second with
  | nil =>
      cases second with
      | nil => rfl
      | cons entry second => simpa [under] using same entry.1
  | cons entry first induction =>
      cases second with
      | nil => simpa [under] using same entry.1
      | cons other second =>
          rw [List.pairwise_cons] at order order'
          have least : other.1 ≤ entry.1 := by
            have member : entry ∈ under entry.1 (other :: second) := by
              rw [← same]
              simp [under]
            rcases List.mem_cons.mp (List.mem_filter.mp member).1 with rfl | member
            · exact le_rfl
            · exact order'.1 entry member
          have least' : entry.1 ≤ other.1 := by
            have member : other ∈ under other.1 (entry :: first) := by
              rw [same]
              simp [under]
            rcases List.mem_cons.mp (List.mem_filter.mp member).1 with rfl | member
            · exact le_rfl
            · exact order.1 other member
          have keys := le_antisymm least least'
          have heads : entry = other := by
            have here := same entry.1
            simp only [under, keys, List.filter_cons, beq_self_eq_true, if_true,
              List.cons.injEq] at here
            exact here.1
          subst heads
          refine congrArg (entry :: ·) (induction order.2 order'.2 fun key => ?_)
          have here := same key
          unfold under at here ⊢
          rw [List.filter_cons, List.filter_cons] at here
          split at here
          · exact (List.cons.inj here).2
          · exact here

theorem sorted_eq_iff {first second : List (String × α)} :
    sorted first = sorted second ↔ ∀ key, under key first = under key second := by
  constructor
  · intro same key
    rw [← under_sorted, same, under_sorted]
  · intro same
    apply eq_of_under (pairwise_sorted first) (pairwise_sorted second)
    intro key
    rw [under_sorted, under_sorted, same]

@[simp] theorem sorted_sorted (table : List (String × α)) : sorted (sorted table) = sorted table :=
  sorted_eq_iff.mpr fun key => under_sorted key table

theorem sorted_append {first first' second second' : List (String × α)}
    (same : sorted first = sorted first') (same' : sorted second = sorted second') :
    sorted (first ++ second) = sorted (first' ++ second') := by
  rw [sorted_eq_iff] at same same' ⊢
  intro key
  rw [under_append, under_append, same, same']

theorem sorted_filter {first second : List (String × α)} (condition : String × α → Bool)
    (same : sorted first = sorted second) :
    sorted (first.filter condition) = sorted (second.filter condition) := by
  rw [sorted_eq_iff] at same ⊢
  intro key
  have swap (table : List (String × α)) :
      under key (table.filter condition) = (under key table).filter condition := by
    unfold under
    rw [List.filter_filter, List.filter_filter]
    simp only [Bool.and_comm]
  rw [swap, swap, same]

/-! ## Looking up -/

theorem lookup_eq_head (key : String) (table : List (String × α)) :
    table.lookup key = (under key table).head?.map Prod.snd := by
  induction table with
  | nil => rfl
  | cons entry table induction =>
      rcases entry with ⟨first, value⟩
      unfold under at induction ⊢
      rw [List.lookup_cons, List.filter_cons]
      by_cases same : key = first
      · simp [same]
      · have different : (key == first) = false := by simpa using same
        have different' : (first == key) = false := by simpa using Ne.symm same
        simp only [different, different', induction, Bool.false_eq_true, if_false]

@[simp] theorem lookup_sorted (key : String) (table : List (String × α)) :
    (sorted table).lookup key = table.lookup key := by
  rw [lookup_eq_head, under_sorted, ← lookup_eq_head]

/-- No key stands twice. -/
def KeysDistinct (table : List (String × α)) : Prop := (table.map Prod.fst).Nodup

theorem under_of_keysDistinct {table : List (String × α)} (distinct : KeysDistinct table)
    (key : String) : under key table = ((table.lookup key).map (key, ·)).toList := by
  induction table with
  | nil => rfl
  | cons field table induction =>
      rcases field with ⟨first, value⟩
      rw [KeysDistinct, List.map_cons, List.nodup_cons] at distinct
      unfold under at induction ⊢
      rw [List.lookup_cons, List.filter_cons]
      by_cases same : key = first
      · subst same
        have others : table.filter (fun field => field.1 == key) = [] := by
          rw [List.filter_eq_nil_iff]
          intro field member same
          exact distinct.1 (List.mem_map.mpr ⟨field, member, beq_iff_eq.mp same⟩)
        simp [others]
      · have different : (key == first) = false := by simpa using same
        have different' : (first == key) = false := by simpa using Ne.symm same
        simp only [different, different', Bool.false_eq_true, if_false]
        exact induction distinct.2

@[simp] theorem length_sorted (table : List (String × α)) :
    (sorted table).length = table.length :=
  (perm_sorted table).length_eq

theorem mem_sorted {entry : String × α} {table : List (String × α)} :
    entry ∈ sorted table ↔ entry ∈ table :=
  (perm_sorted table).mem_iff

theorem map_sorted (change : α → β) (table : List (String × α)) :
    (sorted table).map (fun entry => (entry.1, change entry.2)) =
      sorted (table.map fun entry => (entry.1, change entry.2)) :=
  List.map_insertionSort _ _ _ _ fun _ _ _ _ => Iff.rfl

/-! ## Tables that are put together in order -/

theorem lookup_putSorted (key other : String) (value : α) (table : List (String × α)) :
    (putSorted key value table).lookup other =
      if other = key then some value else table.lookup other := by
  induction table with
  | nil =>
      by_cases same : other = key
      · simp [putSorted, same]
      · have different : (other == key) = false := by simpa using same
        simp [putSorted, List.lookup_cons, same, different]
  | cons entry table induction =>
      rcases entry with ⟨first, old⟩
      unfold putSorted
      by_cases here : first = key
      · subst here
        by_cases same : other = first
        · simp [same]
        · have different : (other == first) = false := by simpa using same
          simp [List.lookup_cons, same, different]
      · rw [if_neg here]
        split
        · by_cases same : other = key
          · simp [same]
          · have different : (other == key) = false := by simpa using same
            simp [List.lookup_cons, same, different]
        · by_cases same : other = first
          · subst same
            simp [here]
          · have different : (other == first) = false := by simpa using same
            simp only [List.lookup_cons, different, induction]

/-- No key stands twice, and they are in order. -/
def IsOrdered (table : List (String × α)) : Prop :=
  table.Pairwise fun first second => first.1 < second.1

theorem mem_put {key : String} {value : α} {entry : String × α} {table : List (String × α)}
    (member : entry ∈ put key value table) : entry = (key, value) ∨ entry ∈ table := by
  induction table with
  | nil => exact .inl (List.mem_singleton.mp member)
  | cons first table induction =>
      rcases first with ⟨other, old⟩
      unfold put at member
      split at member
      · rcases List.mem_cons.mp member with rfl | member
        · exact .inl rfl
        · exact .inr (List.mem_cons_of_mem _ member)
      · rcases List.mem_cons.mp member with rfl | member
        · exact .inr List.mem_cons_self
        · exact (induction member).imp_right (List.mem_cons_of_mem _)

theorem mem_foldl_put {entry : String × α} {table entries : List (String × α)}
    (member : entry ∈ entries.foldl (fun table added => put added.1 added.2 table) table) :
    entry ∈ entries ∨ entry ∈ table := by
  induction entries generalizing table with
  | nil => exact .inr member
  | cons first entries induction =>
      rcases induction member with member | member
      · exact .inl (List.mem_cons_of_mem _ member)
      · rcases mem_put member with rfl | member
        · exact .inl List.mem_cons_self
        · exact .inr member

theorem mem_ofList {entry : String × α} {entries : List (String × α)}
    (member : entry ∈ ofList entries) : entry ∈ entries :=
  (mem_foldl_put member).resolve_right List.not_mem_nil

theorem mem_putSorted {key : String} {value : α} {entry : String × α}
    {table : List (String × α)} (member : entry ∈ putSorted key value table) :
    entry = (key, value) ∨ entry ∈ table := by
  induction table with
  | nil => exact .inl (List.mem_singleton.mp member)
  | cons first table induction =>
      rcases first with ⟨other, old⟩
      unfold putSorted at member
      split at member
      · rcases List.mem_cons.mp member with rfl | member
        · exact .inl rfl
        · exact .inr (List.mem_cons_of_mem _ member)
      · split at member
        · rcases List.mem_cons.mp member with rfl | member
          · exact .inl rfl
          · exact .inr member
        · rcases List.mem_cons.mp member with rfl | member
          · exact .inr List.mem_cons_self
          · exact (induction member).imp_right (List.mem_cons_of_mem _)

theorem mem_mergeSorted {entry : String × α} {table entries : List (String × α)}
    (member : entry ∈ mergeSorted table entries) : entry ∈ entries ∨ entry ∈ table := by
  induction entries generalizing table with
  | nil => exact .inr member
  | cons first entries induction =>
      rcases induction member with member | member
      · exact .inl (List.mem_cons_of_mem _ member)
      · rcases mem_putSorted member with rfl | member
        · exact .inl List.mem_cons_self
        · exact .inr member

theorem isOrdered_putSorted (key : String) (value : α) {table : List (String × α)}
    (ordered : IsOrdered table) : IsOrdered (putSorted key value table) := by
  induction table with
  | nil => exact List.pairwise_singleton _ _
  | cons first table induction =>
      rcases first with ⟨other, old⟩
      have parts := List.pairwise_cons.mp ordered
      unfold putSorted
      split
      · rename_i same
        subst same
        exact List.pairwise_cons.mpr parts
      · rename_i different
        split
        · rename_i before
          refine List.pairwise_cons.mpr ⟨?_, ordered⟩
          rw [List.forall_mem_cons]
          exact ⟨before, fun entry member => lt_trans before (parts.1 entry member)⟩
        · rename_i behind
          refine List.pairwise_cons.mpr ⟨fun entry member => ?_, induction parts.2⟩
          rcases mem_putSorted member with rfl | member
          · exact lt_of_le_of_ne (le_of_not_gt behind) different
          · exact parts.1 entry member

theorem isOrdered_mergeSorted (entries : List (String × α)) {table : List (String × α)}
    (ordered : IsOrdered table) : IsOrdered (mergeSorted table entries) := by
  induction entries generalizing table with
  | nil => exact ordered
  | cons entry entries induction => exact induction (isOrdered_putSorted entry.1 entry.2 ordered)

/-- The last entry under a key counts. -/
theorem lookup_mergeSorted (key : String) (table entries : List (String × α)) :
    (mergeSorted table entries).lookup key =
      ((under key entries).getLast?.map Prod.snd).or (table.lookup key) := by
  induction entries generalizing table with
  | nil => rfl
  | cons entry entries induction =>
      rcases entry with ⟨first, value⟩
      have later := induction (putSorted first value table)
      rw [lookup_putSorted] at later
      change (mergeSorted (putSorted first value table) entries).lookup key = _
      rw [later]
      unfold under
      rw [List.filter_cons]
      by_cases same : key = first
      · subst same
        simp only [beq_self_eq_true, if_true, List.getLast?_cons]
        cases (entries.filter fun entry => entry.1 == key).getLast? <;> rfl
      · have different : (first == key) = false := by simpa using Ne.symm same
        simp only [same, different, Bool.false_eq_true, if_false]

theorem keysDistinct_of_isOrdered {table : List (String × α)} (ordered : IsOrdered table) :
    KeysDistinct table :=
  List.pairwise_map.mpr (List.Pairwise.imp ne_of_lt ordered)

/-- So the order in which entries with different keys come does not matter. -/
theorem mergeSorted_congr {table first second : List (String × α)} (ordered : IsOrdered table)
    (same : sorted first = sorted second) :
    mergeSorted table first = mergeSorted table second := by
  rw [sorted_eq_iff] at same
  have weaken {table : List (String × α)} (ordered : IsOrdered table) :
      table.Pairwise fun first second => first.1 ≤ second.1 :=
    List.Pairwise.imp le_of_lt ordered
  have first' := isOrdered_mergeSorted first ordered
  have second' := isOrdered_mergeSorted second ordered
  apply eq_of_under (weaken first') (weaken second')
  intro key
  rw [under_of_keysDistinct (keysDistinct_of_isOrdered first'),
    under_of_keysDistinct (keysDistinct_of_isOrdered second'), lookup_mergeSorted,
    lookup_mergeSorted, same]

end Table

end Stencil
