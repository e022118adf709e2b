import Stencil.Proofs.Node.Equivalence

namespace Stencil

/-! Canonical forms. The fields of a map stand in the order of their keys, and the entries of a list
in which every one has a name in the order of their names. What equality does not look at either is
dropped: the annotations, and the sign of a zero. -/

/-- The number, but for the sign of a zero. -/
def Number.Decimal.unsigned (value : Decimal) : Decimal :=
  if value.isZero then zero false else value

/-- A list in which every entry has a name, in the order of the names; any other list as it is. -/
def arranged (entries : List Node) : List Node :=
  if allNamed entries then (Table.sorted (byName entries)).map Prod.snd else entries

mutual
def Value.canonical : Value → Value
  | .decimal value => .decimal value.unsigned
  | .list entries => .list (arranged (entriesCanonical entries))
  | .map fields => .map (Table.sorted (fieldsCanonical fields))
  | value => value

def Node.canonical : Node → Node
  | .mk value _ => .mk value.canonical {}

def entriesCanonical : List Node → List Node
  | [] => []
  | entry :: entries => entry.canonical :: entriesCanonical entries

def fieldsCanonical : List (String × Node) → List (String × Node)
  | [] => []
  | (key, field) :: fields => (key, field.canonical) :: fieldsCanonical fields
end

theorem entriesCanonical_eq_map (entries : List Node) :
    entriesCanonical entries = entries.map Node.canonical := by
  induction entries with
  | nil => rfl
  | cons entry entries induction => rw [entriesCanonical, induction, List.map_cons]

theorem fieldsCanonical_eq_mapped (fields : List (String × Node)) :
    fieldsCanonical fields = Table.mapped Node.canonical fields := by
  induction fields with
  | nil => rfl
  | cons field fields induction =>
      rw [fieldsCanonical, induction]
      rfl

/-! Data has no expressions and lambdas. -/

mutual
def Value.isData : Value → Bool
  | .list entries => entriesData entries
  | .map fields => fieldsData fields
  | .expression _ | .lambda _ _ _ => false
  | _ => true

def Node.isData : Node → Bool
  | .mk value _ => value.isData

def entriesData : List Node → Bool
  | [] => true
  | entry :: entries => entry.isData && entriesData entries

def fieldsData : List (String × Node) → Bool
  | [] => true
  | (_, field) :: fields => field.isData && fieldsData fields
end

theorem entriesData_iff {entries : List Node} :
    entriesData entries ↔ ∀ entry ∈ entries, entry.isData := by
  induction entries with
  | nil => simp [entriesData]
  | cons entry entries induction =>
      rw [entriesData, Bool.and_eq_true, induction, List.forall_mem_cons]

theorem fieldsData_iff {fields : List (String × Node)} :
    fieldsData fields ↔ ∀ field ∈ fields, field.2.isData := by
  induction fields with
  | nil => simp [fieldsData]
  | cons field fields induction =>
      rw [fieldsData, Bool.and_eq_true, induction, List.forall_mem_cons]

/-- Data without numbers that are none, and with names that tell apart what they name. -/
structure Node.Tidy (node : Node) : Prop where
  keys : node.keysDistinct
  numbers : node.withoutNaN
  names : node.namesApart
  data : node.isData

namespace Node.Tidy

variable {annotations : Annotations}

theorem entry {entries : List Node} (tidy : (Node.mk (.list entries) annotations).Tidy) :
    ∀ entry ∈ entries, entry.Tidy := fun entry member =>
  ⟨entriesDistinct_iff.mp tidy.keys entry member,
    entriesWithoutNaN_iff.mp tidy.numbers entry member,
    (Value.namesApart_list tidy.names).2 entry member, entriesData_iff.mp tidy.data entry member⟩

theorem byName {entries : List Node} (tidy : (Node.mk (.list entries) annotations).Tidy)
    (named : allNamed entries) : Table.KeysDistinct (byName entries) :=
  (Value.namesApart_list tidy.names).1 named

theorem field {fields : List (String × Node)} (tidy : (Node.mk (.map fields) annotations).Tidy) :
    ∀ field ∈ fields, field.2.Tidy := fun field member =>
  ⟨member_of_fieldsDistinct tidy.keys field member,
    fieldsWithoutNaN_iff.mp tidy.numbers field member,
    fieldsApart_iff.mp tidy.names field member, fieldsData_iff.mp tidy.data field member⟩

theorem byKey {fields : List (String × Node)} (tidy : (Node.mk (.map fields) annotations).Tidy) :
    Table.KeysDistinct fields :=
  keys_nodup tidy.keys

end Node.Tidy

/-! Canonical forms have the same names. -/

theorem Node.name?_canonical (node : Node) : node.canonical.name? = node.name? := by
  rcases node with ⟨value, annotations⟩
  cases value with
  | map fields =>
      simp only [name?, findText?, get?, canonical, Value.canonical, value_mk, Table.lookup_sorted,
        fieldsCanonical_eq_mapped, Table.lookup_mapped]
      rcases fields.lookup "name" with _ | ⟨value, annotations⟩
      · rfl
      · cases value <;> rfl
  | _ => rfl

theorem allNamed_canonical (entries : List Node) :
    allNamed (entries.map Node.canonical) = allNamed entries := by
  rw [allNamed, List.all_map]
  exact congrArg entries.all (funext fun entry => congrArg Option.isSome entry.name?_canonical)

theorem byName_canonical (entries : List Node) :
    byName (entries.map Node.canonical) = Table.mapped Node.canonical (byName entries) := by
  rw [byName, Table.mapped, byName, List.map_map, List.map_map]
  exact List.map_congr_left fun entry _ => by simp [entry.name?_canonical]

theorem allNamed_arranged (entries : List Node) :
    allNamed (arranged entries) = allNamed entries := by
  unfold arranged
  split
  · have perm := (Table.perm_sorted (byName entries)).map Prod.snd
    have back : (byName entries).map Prod.snd = entries := by
      rw [byName, List.map_map]
      exact List.map_id entries
    rw [back] at perm
    exact perm.all_eq
  · rfl

/-- The names stand in the entries, so the order of the entries shows the order of the table. -/
theorem arranged_eq_iff {lefts rights : List Node} (named : allNamed lefts)
    (named' : allNamed rights) : arranged lefts = arranged rights ↔
      Table.sorted (byName lefts) = Table.sorted (byName rights) := by
  have back (entries : List Node) :
      byName ((Table.sorted (byName entries)).map Prod.snd) = Table.sorted (byName entries) := by
    rw [byName, List.map_map]
    refine (List.map_congr_left fun field listed => ?_).trans (List.map_id _)
    rcases List.mem_map.mp (Table.mem_sorted.mp listed) with ⟨entry, _, rfl⟩
    rfl
  rw [arranged, if_pos named, arranged, if_pos named']
  constructor
  · intro same
    rw [← back lefts, same, back rights]
  · exact congrArg (List.map Prod.snd)

namespace Number.Decimal

theorem same_iff {left right : Decimal} (number : !left.isNaN) (number' : !right.isNaN) :
    left.same right ↔ left.unsigned = right.unsigned := by
  simp only [same, unsigned, number, number', Bool.true_and, Bool.or_eq_true,
    Bool.and_eq_true, beq_iff_eq]
  have isZero_zero : (zero false).isZero = true := rfl
  by_cases isZero : left.isZero <;> by_cases isZero' : right.isZero
  · simp [isZero, isZero']
  · have different : left ≠ right := by
      rintro rfl
      exact isZero' isZero
    have different' : zero false ≠ right := by
      rintro rfl
      exact isZero' isZero_zero
    simp [isZero, isZero', different, different']
  · have different : left ≠ right := by
      rintro rfl
      exact isZero isZero'
    have different' : left ≠ zero false := by
      rintro rfl
      exact isZero isZero_zero
    simp [isZero, isZero', different, different']
  · simp [isZero, isZero']

end Number.Decimal

namespace Node

variable {annotations annotations' : Annotations}

theorem canonical_list (entries : List Node) :
    (mk (.list entries) annotations).canonical =
      .mk (.list (arranged (entries.map canonical))) {} := by
  rw [canonical, Value.canonical, entriesCanonical_eq_map]

theorem canonical_map (fields : List (String × Node)) :
    (mk (.map fields) annotations).canonical =
      .mk (.map (Table.sorted (Table.mapped canonical fields))) {} := by
  rw [canonical, Value.canonical, fieldsCanonical_eq_mapped]

theorem list_equivalent_iff_canonical {lefts rights : List Node}
    (tidy : (mk (.list lefts) annotations).Tidy) (tidy' : (mk (.list rights) annotations').Tidy)
    (each : ∀ left ∈ lefts, ∀ right ∈ rights,
      left.equivalent right ↔ left.canonical = right.canonical) :
    (mk (.list lefts) annotations).equivalent (.mk (.list rights) annotations') ↔
      arranged (lefts.map canonical) = arranged (rights.map canonical) := by
  have names := allNamed_canonical
  by_cases agree : allNamed lefts = allNamed rights
  swap
  · refine iff_of_false (fun both => agree ?_) fun same => agree ?_
    · exact Bool.eq_iff_iff.mpr
        ⟨allNamed_of_equivalent both, allNamed_of_equivalent' tidy.keys both⟩
    · rw [← names lefts, ← allNamed_arranged, same, allNamed_arranged, names rights]
  by_cases named : allNamed lefts
  · have named' : allNamed rights := agree ▸ named
    rw [arranged_eq_iff (by rwa [names]) (by rwa [names]), byName_canonical, byName_canonical,
      Table.sorted_mapped_iff (tidy.byName named) (tidy'.byName named')]
    refine (Value.equivalent_named_iff named named').trans (Table.Matches.congr ?_)
    exact fun field listed other listed' =>
      each field.2 (mem_of_mem_byName listed) other.2 (mem_of_mem_byName listed')
  · have unnamed : ¬allNamed rights := agree ▸ named
    rw [arranged, if_neg (by rwa [names]), arranged, if_neg (by rwa [names])]
    refine (Value.equivalent_unnamed_iff fun all => named all.1).trans
      ((forall₂_congr_mem each).trans ?_)
    rw [← List.forall₂_eq_eq_eq, List.forall₂_map_left_iff, List.forall₂_map_right_iff]

/-- Equivalence ignores the order of keys and of lists in which every entry has a name, at every
depth, and nothing else. -/
theorem equivalent_iff_canonical {left right : Node} (tidy : left.Tidy) (tidy' : right.Tidy) :
    left.equivalent right ↔ left.canonical = right.canonical := by
  induction left using Node.induction generalizing right with
  | list entries annotations induction =>
      rcases right with ⟨right, annotations'⟩
      cases right with
      | list others =>
          rw [canonical_list, canonical_list, Node.mk.injEq, and_iff_left rfl, Value.list.injEq]
          refine list_equivalent_iff_canonical tidy tidy' ?_
          exact fun entry member other member' =>
            induction entry member (tidy.entry entry member) (tidy'.entry other member')
      | _ => exact iff_of_false nofun nofun
  | map fields annotations induction =>
      rcases right with ⟨right, annotations'⟩
      cases right with
      | map others =>
          rw [canonical_map, canonical_map, Node.mk.injEq, and_iff_left rfl, Value.map.injEq,
            Table.sorted_mapped_iff tidy.byKey tidy'.byKey]
          refine Value.equivalent_map_iff.trans (Table.Matches.congr ?_)
          exact fun field member other member' =>
            induction field member (tidy.field field member) (tidy'.field other member')
      | _ => exact iff_of_false nofun nofun
  | lambda parameters body captured annotations _ => cases tidy.data
  | scalar value annotations notList notMap notLambda =>
      have notList' : (mk value annotations).kind ≠ .list := notList
      rw [equivalent_of_kind notList' notMap]
      rcases right with ⟨right, annotations'⟩
      rw [canonical, canonical, Node.mk.injEq, and_iff_left rfl, Node.same]
      cases value with
      | list entries => cases notList rfl
      | map fields => cases notMap rfl
      | expression expression => cases tidy.data
      | lambda parameters body captured => cases tidy.data
      | decimal number =>
          cases right with
          | decimal number' =>
              rw [Value.canonical, Value.canonical, Value.decimal.injEq]
              exact Number.Decimal.same_iff tidy.numbers tidy'.numbers
          | _ => exact iff_of_false nofun nofun
      | _ =>
          cases right <;> simp [Value.same, Value.canonical]

theorem equivalent_iff_canonical_swapped :
    let turned : Node := .mk (.map [("v", .mk (.integer 1) {}), ("name", .mk (.text "a") {})]) {}
    let left : Node := .mk (.list [called "b" 2, called "a" 1]) {}
    let right : Node := .mk (.list [turned, called "b" 2]) {}
    left.Tidy ∧ right.Tidy ∧ left.equivalent right ∧ left.canonical = right.canonical := by
  have tidy : (mk (.list [called "b" 2, called "a" 1]) {}).Tidy := by constructor <;> decide
  have tidy' : (mk (.list [.mk (.map [("v", .mk (.integer 1) {}), ("name", .mk (.text "a") {})]) {},
      called "b" 2]) {}).Tidy := by constructor <;> decide
  exact ⟨tidy, tidy', by decide, (equivalent_iff_canonical tidy tidy').mp (by decide)⟩

end Node

end Stencil
