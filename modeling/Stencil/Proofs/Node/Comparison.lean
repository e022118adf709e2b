import Stencil.Node.Data
import Stencil.Node.Lookup

namespace Stencil

/-! Which trees equal themselves. A decimal that is no number does not, and a map in which
a key stood twice would not either. In the trees that are read, every key stands once. -/

mutual
/-- No key stands twice in a map. -/
def Value.keysDistinct : Value → Bool
  | .list entries => entriesDistinct entries
  | .map fields => fieldsDistinct fields
  | .lambda _ _ captured => capturedDistinct captured
  | _ => true

def Node.keysDistinct : Node → Bool
  | .mk value _ => value.keysDistinct

def entriesDistinct : List Node → Bool
  | [] => true
  | entry :: entries => entry.keysDistinct && entriesDistinct entries

def fieldsDistinct : List (String × Node) → Bool
  | [] => true
  | (key, field) :: fields =>
      (fields.lookup key).isNone && field.keysDistinct && fieldsDistinct fields

def capturedDistinct : List (String × Node) → Bool
  | [] => true
  | (_, node) :: captured => node.keysDistinct && capturedDistinct captured
end

mutual
/-- Every decimal is a number. -/
def Value.withoutNaN : Value → Bool
  | .decimal value => !value.isNaN
  | .list entries => entriesWithoutNaN entries
  | .map fields => fieldsWithoutNaN fields
  | .lambda _ _ captured => fieldsWithoutNaN captured
  | _ => true

def Node.withoutNaN : Node → Bool
  | .mk value _ => value.withoutNaN

def entriesWithoutNaN : List Node → Bool
  | [] => true
  | entry :: entries => entry.withoutNaN && entriesWithoutNaN entries

def fieldsWithoutNaN : List (String × Node) → Bool
  | [] => true
  | (_, field) :: fields => field.withoutNaN && fieldsWithoutNaN fields
end

theorem Node.value_keysDistinct (node : Node) : node.value.keysDistinct = node.keysDistinct := by
  rcases node with ⟨value, annotations⟩
  rfl

theorem Node.value_withoutNaN (node : Node) : node.value.withoutNaN = node.withoutNaN := by
  rcases node with ⟨value, annotations⟩
  rfl

theorem entriesWithoutNaN_iff {entries : List Node} :
    entriesWithoutNaN entries ↔ ∀ entry ∈ entries, entry.withoutNaN := by
  induction entries with
  | nil => simp [entriesWithoutNaN]
  | cons entry entries induction =>
      rw [entriesWithoutNaN, Bool.and_eq_true, induction, List.forall_mem_cons]

theorem fieldsWithoutNaN_iff {fields : List (String × Node)} :
    fieldsWithoutNaN fields ↔ ∀ entry ∈ fields, entry.2.withoutNaN := by
  induction fields with
  | nil => simp [fieldsWithoutNaN]
  | cons entry fields induction =>
      rw [fieldsWithoutNaN, Bool.and_eq_true, induction, List.forall_mem_cons]

/-! ## Keys -/

theorem fieldsDistinct_cons {key : String} {field : Node} {fields : List (String × Node)} :
    fieldsDistinct ((key, field) :: fields) ↔
      fields.lookup key = none ∧ field.keysDistinct ∧ fieldsDistinct fields := by
  rw [fieldsDistinct, Bool.and_eq_true, Bool.and_eq_true, Option.isNone_iff_eq_none, and_assoc]

theorem entriesDistinct_iff {entries : List Node} :
    entriesDistinct entries ↔ ∀ entry ∈ entries, entry.keysDistinct := by
  induction entries with
  | nil => simp [entriesDistinct]
  | cons entry entries induction =>
      rw [entriesDistinct, Bool.and_eq_true, induction, List.forall_mem_cons]

theorem capturedDistinct_iff {captured : List (String × Node)} :
    capturedDistinct captured ↔ ∀ entry ∈ captured, entry.2.keysDistinct := by
  induction captured with
  | nil => simp [capturedDistinct]
  | cons entry captured induction =>
      rw [capturedDistinct, Bool.and_eq_true, induction, List.forall_mem_cons]

theorem member_of_fieldsDistinct {fields : List (String × Node)} (distinct : fieldsDistinct fields) :
    ∀ entry ∈ fields, entry.2.keysDistinct := by
  induction fields with
  | nil => exact fun _ member => nomatch member
  | cons entry fields induction =>
      rcases fieldsDistinct_cons.mp distinct with ⟨_, here, distinct⟩
      exact List.forall_mem_cons.mpr ⟨here, induction distinct⟩

theorem fieldsDistinct_append {first second : List (String × Node)}
    (distinct : fieldsDistinct first) (distinct' : fieldsDistinct second)
    (apart : ∀ entry ∈ second, first.lookup entry.1 = none) :
    fieldsDistinct (first ++ second) := by
  induction first with
  | nil => exact distinct'
  | cons entry first induction =>
      rcases entry with ⟨key, field⟩
      rcases fieldsDistinct_cons.mp distinct with ⟨fresh, here, distinct⟩
      have different : ∀ entry ∈ second, first.lookup entry.1 = none ∧ key ≠ entry.1 := by
        intro entry member
        have none := apart entry member
        rw [List.lookup_cons] at none
        split at none
        · cases none
        · rename_i different
          exact ⟨none, fun same => by simp [same] at different⟩
      rw [List.cons_append]
      refine fieldsDistinct_cons.mpr
        ⟨?_, here, induction distinct fun entry member => (different entry member).1⟩
      rw [List.lookup_append, fresh, Option.none_or, List.lookup_eq_none_iff]
      intro entry member
      simpa using (different entry member).2

/-- A choice of the fields has distinct keys as well. -/
theorem fieldsDistinct_filter {fields : List (String × Node)} (condition : String × Node → Bool)
    (distinct : fieldsDistinct fields) : fieldsDistinct (fields.filter condition) := by
  induction fields with
  | nil => rfl
  | cons entry fields induction =>
      rcases entry with ⟨key, field⟩
      rcases fieldsDistinct_cons.mp distinct with ⟨fresh, here, distinct⟩
      rw [List.filter_cons]
      split
      · refine fieldsDistinct_cons.mpr ⟨?_, here, induction distinct⟩
        rw [List.lookup_eq_none_iff] at fresh ⊢
        exact fun entry member => fresh entry (List.mem_filter.mp member).1
      · exact induction distinct

theorem lookup_map {α β : Type} (change : α → β) (key : String) (fields : List (String × α)) :
    (fields.map fun (key, field) => (key, change field)).lookup key =
      (fields.lookup key).map change := by
  induction fields with
  | nil => rfl
  | cons entry fields induction =>
      rw [List.map_cons, List.lookup_cons, List.lookup_cons]
      split
      · rfl
      · exact induction

/-- So have the same keys with other fields. -/
theorem fieldsDistinct_map {fields : List (String × Node)} {change : Node → Node}
    (distinct : fieldsDistinct fields)
    (plain : ∀ entry ∈ fields, (change entry.2).keysDistinct) :
    fieldsDistinct (fields.map fun (key, field) => (key, change field)) := by
  induction fields with
  | nil => rfl
  | cons entry fields induction =>
      rcases entry with ⟨key, field⟩
      rcases fieldsDistinct_cons.mp distinct with ⟨fresh, _, distinct⟩
      rw [List.forall_mem_cons] at plain
      refine fieldsDistinct_cons.mpr ⟨?_, plain.1, induction distinct plain.2⟩
      rw [lookup_map, fresh, Option.map_none]

theorem member_of_lookup {α : Type} {fields : List (String × α)} {key : String} {field : α}
    (found : fields.lookup key = some field) : (key, field) ∈ fields := by
  rcases List.lookup_eq_some_iff.mp found with ⟨before, after, rfl, _⟩
  exact List.mem_append_right _ List.mem_cons_self

/-- Every field is found under its key. -/
theorem lookup_of_distinct {fields : List (String × Node)} {key : String} {field : Node}
    (distinct : fieldsDistinct fields) (member : (key, field) ∈ fields) :
    fields.lookup key = some field := by
  induction fields with
  | nil => cases member
  | cons entry fields induction =>
      rcases entry with ⟨first, here⟩
      rcases fieldsDistinct_cons.mp distinct with ⟨fresh, _, distinct⟩
      rw [List.lookup_cons]
      rcases List.mem_cons.mp member with equal | member
      · cases equal
        simp
      · have later := induction distinct member
        have different : (key == first) = false := by
          rw [beq_eq_false_iff_ne]
          intro same
          rw [same, fresh] at later
          cases later
        rw [different]
        exact later

theorem fieldsDistinct_put {key : String} {field : Node} {fields : List (String × Node)}
    (distinct : fieldsDistinct fields) (here : field.keysDistinct) :
    fieldsDistinct (Table.put key field fields) := by
  induction fields with
  | nil => exact fieldsDistinct_cons.mpr ⟨rfl, here, rfl⟩
  | cons entry fields induction =>
      rcases entry with ⟨first, old⟩
      rcases fieldsDistinct_cons.mp distinct with ⟨fresh, before, distinct⟩
      rw [Table.put]
      split
      · rename_i same
        subst same
        exact fieldsDistinct_cons.mpr ⟨fresh, here, distinct⟩
      · rename_i different
        refine fieldsDistinct_cons.mpr ⟨?_, before, induction distinct⟩
        rw [Table.lookup_put, if_neg different]
        exact fresh

theorem fieldsDistinct_ofList {fields : List (String × Node)}
    (distinct : ∀ entry ∈ fields, entry.2.keysDistinct) :
    fieldsDistinct (Table.ofList fields) := by
  suffices all : ∀ table, fieldsDistinct table → fieldsDistinct
      (fields.foldl (fun table (key, value) => Table.put key value table) table) from all [] rfl
  induction fields with
  | nil => exact fun table distinct => distinct
  | cons entry fields induction =>
      rw [List.forall_mem_cons] at distinct
      intro table before
      exact induction distinct.2 _ (fieldsDistinct_put before distinct.1)

/-! What is read from plain data has distinct keys. -/

mutual
theorem Node.keysDistinct_ofTree (source : Option String) :
    ∀ tree : Tree, (Node.ofTree source tree).keysDistinct
  | .null | .boolean _ | .decimal _ | .text _ => rfl
  | .integer value => by
      rw [Node.ofTree, Tree.integerValue]
      split <;> rfl
  | .sequence entries => entriesDistinct_ofTrees source entries
  | .mapping fields => fieldsDistinct_ofList (keysDistinct_ofTrees source fields)
  | .tagged _ tree => Node.keysDistinct_ofTree source tree

theorem entriesDistinct_ofTrees (source : Option String) :
    ∀ trees : List Tree, entriesDistinct (entriesOfTrees source trees)
  | [] => rfl
  | tree :: trees => by
      rw [entriesOfTrees, entriesDistinct, Bool.and_eq_true]
      exact ⟨Node.keysDistinct_ofTree source tree, entriesDistinct_ofTrees source trees⟩

theorem keysDistinct_ofTrees (source : Option String) :
    ∀ trees : List (Tree × Tree), ∀ entry ∈ fieldsOfTrees source trees, entry.2.keysDistinct
  | [] => by
      intro entry member
      cases member
  | (_, tree) :: trees => by
      rw [fieldsOfTrees, List.forall_mem_cons]
      exact ⟨Node.keysDistinct_ofTree source tree, keysDistinct_ofTrees source trees⟩
end

/-! ## Equality -/

mutual
theorem Value.same_self : ∀ value : Value, value.keysDistinct → value.withoutNaN →
    value.same value
  | .null, _, _ => rfl
  | .boolean _, _, _ | .integer _, _, _ | .text _, _, _ | .expression _, _, _ => by
      simp [Value.same]
  | .decimal value, _, number => by
      have number : value.isNaN = false := by simpa [Value.withoutNaN] using number
      simp [Value.same, Number.Decimal.same, number]
  | .list entries, distinct, numbers => sameEntries_self entries distinct numbers
  | .map fields, distinct, numbers => by
      rw [Value.same, beq_self_eq_true, Bool.true_and]
      exact sameFields_self fields distinct numbers fun _ _ => lookup_of_distinct distinct
  | .lambda _ _ captured, distinct, numbers => by
      rw [Value.same, beq_self_eq_true, beq_self_eq_true, Bool.true_and, Bool.true_and]
      exact sameCaptured_self captured distinct numbers

theorem Node.same_self : ∀ node : Node, node.keysDistinct → node.withoutNaN → node.same node
  | .mk value _, distinct, numbers => value.same_self distinct numbers

theorem sameEntries_self : ∀ entries : List Node, entriesDistinct entries →
    entriesWithoutNaN entries → sameEntries entries entries
  | [], _, _ => rfl
  | entry :: entries, distinct, numbers => by
      rw [entriesDistinct, Bool.and_eq_true] at distinct
      rw [entriesWithoutNaN, Bool.and_eq_true] at numbers
      rw [sameEntries, Bool.and_eq_true]
      exact ⟨entry.same_self distinct.1 numbers.1, sameEntries_self entries distinct.2 numbers.2⟩

theorem sameFields_self : ∀ (fields : List (String × Node)) {table : List (String × Node)},
    fieldsDistinct fields → fieldsWithoutNaN fields →
      (∀ key field, (key, field) ∈ fields → table.lookup key = some field) →
        sameFields fields table
  | [], _, _, _, _ => rfl
  | (key, field) :: fields, table, distinct, numbers, found => by
      rcases fieldsDistinct_cons.mp distinct with ⟨_, here, distinct⟩
      rw [fieldsWithoutNaN, Bool.and_eq_true] at numbers
      rw [sameFields, found key field List.mem_cons_self, Bool.and_eq_true]
      exact ⟨field.same_self here numbers.1, sameFields_self fields distinct numbers.2
        fun key field member => found key field (List.mem_cons_of_mem _ member)⟩

theorem sameCaptured_self : ∀ captured : List (String × Node), capturedDistinct captured →
    fieldsWithoutNaN captured → sameCaptured captured captured
  | [], _, _ => rfl
  | (name, node) :: captured, distinct, numbers => by
      rw [capturedDistinct, Bool.and_eq_true] at distinct
      rw [fieldsWithoutNaN, Bool.and_eq_true] at numbers
      rw [sameCaptured, beq_self_eq_true, Bool.true_and, Bool.and_eq_true]
      exact ⟨node.same_self distinct.1 numbers.1, sameCaptured_self captured distinct.2 numbers.2⟩
end

/-! What is found in a collection is found in an equal one. -/

theorem same_of_sameFields {left right : List (String × Node)} {key : String} {node : Node}
    (same : sameFields left right) (held : left.lookup key = some node) :
    ∃ other, right.lookup key = some other ∧ node.same other := by
  induction left with
  | nil => cases held
  | cons field left induction =>
      rcases field with ⟨first, here⟩
      rw [sameFields, Bool.and_eq_true] at same
      rw [List.lookup_cons] at held
      split at held
      · rename_i equal
        cases beq_iff_eq.mp equal
        cases held
        have same := same.1
        split at same
        · exact ⟨_, ‹_›, same⟩
        · cases same
      · exact induction same.2 held

theorem same_of_sameEntries {lefts rights : List Node} {index : Nat} {left : Node}
    (same : sameEntries lefts rights) (found : lefts[index]? = some left) :
    ∃ right, rights[index]? = some right ∧ left.same right := by
  induction lefts generalizing rights index with
  | nil => cases found
  | cons first lefts induction =>
      cases rights with
      | nil => cases same
      | cons second rights =>
          rw [sameEntries, Bool.and_eq_true] at same
          cases index with
          | zero =>
              cases found
              exact ⟨second, rfl, same.1⟩
          | succ index =>
              rw [List.getElem?_cons_succ] at found ⊢
              exact induction same.2 found

/-! What equals anything has numbers only. -/

mutual
theorem Value.withoutNaN_of_same : ∀ {left right : Value}, left.same right → left.withoutNaN
  | .null, _, _ | .boolean _, _, _ | .integer _, _, _ | .text _, _, _ | .expression _, _, _ => rfl
  | .decimal left, right, same => by
      cases right with
      | decimal right =>
          rw [Value.same, Number.Decimal.same, Bool.and_eq_true, Bool.and_eq_true] at same
          exact same.1.1
      | _ => cases same
  | .list left, right, same => by
      cases right with
      | list right => exact entriesWithoutNaN_of_same same
      | _ => cases same
  | .map left, right, same => by
      cases right with
      | map right =>
          rw [Value.same, Bool.and_eq_true] at same
          exact fieldsWithoutNaN_of_same same.2
      | _ => cases same
  | .lambda parameters body left, right, same => by
      cases right with
      | lambda parameters' body' right =>
          rw [Value.same, Bool.and_eq_true] at same
          exact capturedWithoutNaN_of_same same.2
      | _ => cases same

theorem Node.withoutNaN_of_same : ∀ {left right : Node}, left.same right → left.withoutNaN
  | .mk _ _, .mk _ _, same => Value.withoutNaN_of_same same

theorem entriesWithoutNaN_of_same : ∀ {left right : List Node}, sameEntries left right →
    entriesWithoutNaN left
  | [], _, _ => rfl
  | _ :: _, [], same => by cases same
  | _ :: _, _ :: _, same => by
      rw [sameEntries, Bool.and_eq_true] at same
      rw [entriesWithoutNaN, Bool.and_eq_true]
      exact ⟨Node.withoutNaN_of_same same.1, entriesWithoutNaN_of_same same.2⟩

theorem fieldsWithoutNaN_of_same : ∀ {left right : List (String × Node)},
    sameFields left right → fieldsWithoutNaN left
  | [], _, _ => rfl
  | (key, _) :: _, right, same => by
      rw [sameFields, Bool.and_eq_true] at same
      rw [fieldsWithoutNaN, Bool.and_eq_true]
      refine ⟨?_, fieldsWithoutNaN_of_same same.2⟩
      have here := same.1
      split at here
      · exact Node.withoutNaN_of_same here
      · cases here

theorem capturedWithoutNaN_of_same : ∀ {left right : List (String × Node)},
    sameCaptured left right → fieldsWithoutNaN left
  | [], _, _ => rfl
  | _ :: _, [], same => by cases same
  | (_, _) :: _, (_, _) :: _, same => by
      rw [sameCaptured, Bool.and_eq_true, Bool.and_eq_true] at same
      rw [fieldsWithoutNaN, Bool.and_eq_true]
      exact ⟨Node.withoutNaN_of_same same.1.2, capturedWithoutNaN_of_same same.2⟩
end

/-- What equals something else also equals itself. -/
theorem Node.same_self_of_same {left right : Node} (distinct : left.keysDistinct)
    (same : left.same right) : left.same left :=
  left.same_self distinct (Node.withoutNaN_of_same same)

end Stencil
