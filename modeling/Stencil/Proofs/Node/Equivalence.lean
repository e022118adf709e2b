import Stencil.Evaluation.Operation
import Stencil.Proofs.Node.Ordered

namespace Stencil

/-! ## Lists as tables by name

Two lists in which every entry has a name are compared like maps: the names are the keys. -/

def allNamed (entries : List Node) : Bool := entries.all (·.name?.isSome)

/-- The entries under their names. -/
def byName (entries : List Node) : List (String × Node) :=
  entries.map fun entry => (entry.name?.getD "", entry)

theorem allNamed_iff {entries : List Node} :
    allNamed entries ↔ ∀ entry ∈ entries, ∃ name, entry.name? = some name := by
  simp only [allNamed, List.all_eq_true, Option.isSome_iff_exists]

theorem allNamed_cons {entry : Node} {entries : List Node} :
    allNamed (entry :: entries) ↔ (∃ name, entry.name? = some name) ∧ allNamed entries := by
  rw [allNamed_iff, List.forall_mem_cons, allNamed_iff]

theorem byName_cons {entry : Node} {name : String} (found : entry.name? = some name)
    (entries : List Node) : byName (entry :: entries) = (name, entry) :: byName entries := by
  rw [byName, List.map_cons, found, Option.getD_some, byName]

theorem mem_byName {entries : List Node} {name : String} {entry : Node} (named : allNamed entries) :
    (name, entry) ∈ byName entries ↔ entry.name? = some name ∧ entry ∈ entries := by
  unfold byName
  rw [List.mem_map]
  constructor
  · rintro ⟨_, member, ⟨⟩⟩
    rcases allNamed_iff.mp named entry member with ⟨name, found⟩
    exact ⟨by rw [found, Option.getD_some], member⟩
  · rintro ⟨found, member⟩
    exact ⟨entry, member, by rw [found, Option.getD_some]⟩

theorem mem_of_mem_byName {entries : List Node} {field : String × Node}
    (member : field ∈ byName entries) : field.2 ∈ entries := by
  rcases List.mem_map.mp member with ⟨entry, there, rfl⟩
  exact there

theorem lookup_byName {entries : List Node} (named : allNamed entries) (name : String) :
    (byName entries).lookup name = entries.find? fun entry => entry.name? = some name := by
  induction entries with
  | nil => rfl
  | cons entry entries induction =>
      rcases allNamed_cons.mp named with ⟨⟨first, found⟩, others⟩
      rw [byName_cons found, List.lookup_cons, List.find?_cons, found]
      by_cases same : name = first
      · simp [same]
      · have different : (name == first) = false := by simpa using same
        have different' : decide (some first = some name) = false := by
          simpa using Ne.symm same
        rw [different, different', induction others]

theorem length_byName (entries : List Node) : (byName entries).length = entries.length :=
  List.length_map _

theorem entriesByName_iff {lefts rights : List Node} (named : allNamed lefts)
    (named' : allNamed rights) :
    entriesByName lefts rights ↔ ∀ field ∈ byName lefts,
      ∃ right, (byName rights).lookup field.1 = some right ∧ field.2.equivalent right := by
  induction lefts with
  | nil => simp [entriesByName, byName]
  | cons left lefts induction =>
      rcases allNamed_cons.mp named with ⟨⟨first, found⟩, others⟩
      rw [entriesByName, Bool.and_eq_true, induction others, byName_cons found,
        List.forall_mem_cons, lookup_byName named', found]
      cases rights.find? fun right => right.name? = some first <;> simp

theorem entriesInOrder_iff {lefts rights : List Node} (length : lefts.length = rights.length) :
    entriesInOrder lefts rights ↔
      List.Forall₂ (fun left right => left.equivalent right) lefts rights := by
  induction lefts generalizing rights with
  | nil =>
      cases rights with
      | nil => simp [entriesInOrder]
      | cons => cases length
  | cons left lefts induction =>
      cases rights with
      | nil => cases length
      | cons right rights =>
          rw [entriesInOrder, Bool.and_eq_true, List.forall₂_cons,
            induction (Nat.succ.inj length)]

namespace Value

/-! ## What equivalence compares -/

theorem equivalent_map_iff {lefts rights : List (String × Node)} :
    (map lefts).equivalent (.map rights) ↔
      Table.Matches (fun left right => left.equivalent right) lefts rights := by
  rw [equivalent, Bool.and_eq_true, beq_iff_eq, fieldsEquivalent_iff]
  exact ⟨fun both => ⟨both.1, both.2⟩, fun both => ⟨both.length, both.found⟩⟩

theorem equivalent_named_iff {lefts rights : List Node} (named : allNamed lefts)
    (named' : allNamed rights) :
    (list lefts).equivalent (.list rights) ↔
      Table.Matches (fun left right => left.equivalent right) (byName lefts) (byName rights) := by
  have all : (lefts ++ rights).all (·.name?.isSome) = true := by
    rw [List.all_append, Bool.and_eq_true]
    exact ⟨named, named'⟩
  rw [equivalent, if_pos all, Bool.and_eq_true, beq_iff_eq, entriesByName_iff named named',
    ← length_byName lefts, ← length_byName rights]
  exact ⟨fun both => ⟨both.1, both.2⟩, fun both => ⟨both.length, both.found⟩⟩

theorem equivalent_unnamed_iff {lefts rights : List Node}
    (unnamed : ¬(allNamed lefts ∧ allNamed rights)) :
    (list lefts).equivalent (.list rights) ↔
      List.Forall₂ (fun left right => left.equivalent right) lefts rights := by
  have some : ¬ (lefts ++ rights).all (·.name?.isSome) = true := by
    rwa [List.all_append, Bool.and_eq_true]
  rw [equivalent, if_neg some, Bool.and_eq_true, beq_iff_eq]
  constructor
  · rintro ⟨length, both⟩
    exact (entriesInOrder_iff length).mp both
  · intro both
    exact ⟨both.length_eq, (entriesInOrder_iff both.length_eq).mpr both⟩

end Value

/-! ## Names

An equivalent node has the same name, so a list in which every entry has one is equivalent to such
lists only. -/

namespace Node

theorem name?_eq_some_iff {node : Node} {name : String} :
    node.name? = some name ↔ ∃ fields named, node.value = .map fields ∧
      fields.lookup "name" = some named ∧ named.value = .text name := by
  rcases node with ⟨value, annotations⟩
  cases value with
  | map fields =>
      simp only [name?, findText?, get?, value_mk, Value.map.injEq]
      cases found : fields.lookup "name" with
      | none => simp [found]
      | some named => cases held : named.value <;> simp [found, held]
  | _ => simp [name?, findText?, get?]

variable {left right : Node} {name : String}

theorem value_eq_text_iff (both : left.equivalent right) :
    left.value = .text name ↔ right.value = .text name := by
  rcases left with ⟨left, annotations⟩
  rcases right with ⟨right, annotations'⟩
  cases left with
  | text text =>
      cases right with
      | text text' =>
          have same : (text == text') = true := both
          rw [value_mk, value_mk, eq_of_beq same]
      | _ => cases both
  | _ => cases right <;> first | (simp; done) | cases both

theorem name?_of_equivalent (both : left.equivalent right) (found : left.name? = some name) :
    right.name? = some name := by
  rcases left with ⟨left, annotations⟩
  rcases right with ⟨right, annotations'⟩
  rcases name?_eq_some_iff.mp found with ⟨fields, named, rfl, held, text⟩
  cases right with
  | map fields' =>
      rcases (Value.equivalent_map_iff.mp both).found _ (member_of_lookup held) with
        ⟨other, held', same⟩
      exact name?_eq_some_iff.mpr ⟨fields', other, rfl, held', (value_eq_text_iff same).mp text⟩
  | _ => cases both

theorem name?_of_equivalent' (distinct : left.keysDistinct) (both : left.equivalent right)
    (found : right.name? = some name) : left.name? = some name := by
  rcases left with ⟨left, annotations⟩
  rcases right with ⟨right, annotations'⟩
  rcases name?_eq_some_iff.mp found with ⟨fields, named, rfl, held, text⟩
  cases left with
  | map fields' =>
      rcases (Value.equivalent_map_iff.mp both).lookup_of_right (keys_nodup distinct) held with
        ⟨other, held', same⟩
      exact name?_eq_some_iff.mpr ⟨fields', other, rfl, held', (value_eq_text_iff same).mpr text⟩
  | _ => cases both

end Node

theorem allNamed_of_forall₂ {lefts rights : List Node}
    (both : List.Forall₂ (fun left right => left.equivalent right) lefts rights)
    (named : allNamed lefts) : allNamed rights := by
  induction both with
  | nil => rfl
  | cons here _ induction =>
      rcases allNamed_cons.mp named with ⟨⟨name, found⟩, others⟩
      exact allNamed_cons.mpr ⟨⟨name, Node.name?_of_equivalent here found⟩, induction others⟩

theorem allNamed_of_forall₂' {lefts rights : List Node} (distinct : entriesDistinct lefts)
    (both : List.Forall₂ (fun left right => left.equivalent right) lefts rights)
    (named : allNamed rights) : allNamed lefts := by
  induction both with
  | nil => rfl
  | cons here _ induction =>
      rw [entriesDistinct, Bool.and_eq_true] at distinct
      rcases allNamed_cons.mp named with ⟨⟨name, found⟩, others⟩
      exact allNamed_cons.mpr
        ⟨⟨name, Node.name?_of_equivalent' distinct.1 here found⟩, induction distinct.2 others⟩

theorem allNamed_of_equivalent {lefts rights : List Node}
    (both : (Value.list lefts).equivalent (.list rights)) (named : allNamed lefts) :
    allNamed rights := by
  by_cases named' : allNamed rights
  · exact named'
  · have unnamed : ¬(allNamed lefts ∧ allNamed rights) := fun all => named' all.2
    exact allNamed_of_forall₂ ((Value.equivalent_unnamed_iff unnamed).mp both) named

theorem allNamed_of_equivalent' {lefts rights : List Node} (distinct : entriesDistinct lefts)
    (both : (Value.list lefts).equivalent (.list rights)) (named : allNamed rights) :
    allNamed lefts := by
  by_cases named' : allNamed lefts
  · exact named'
  · have unnamed : ¬(allNamed lefts ∧ allNamed rights) := fun all => named' all.1
    exact allNamed_of_forall₂' distinct ((Value.equivalent_unnamed_iff unnamed).mp both) named

/-! Where all entries of a list have names, no two of them have the same one. -/

mutual
def Value.namesApart : Value → Bool
  | .list entries =>
      (!allNamed entries || decide (entries.map Node.name?).Nodup) && entriesApart entries
  | .map fields => fieldsApart fields
  | _ => true

def Node.namesApart : Node → Bool
  | .mk value _ => value.namesApart

def entriesApart : List Node → Bool
  | [] => true
  | entry :: entries => entry.namesApart && entriesApart entries

def fieldsApart : List (String × Node) → Bool
  | [] => true
  | (_, field) :: fields => field.namesApart && fieldsApart fields
end

theorem entriesApart_iff {entries : List Node} :
    entriesApart entries ↔ ∀ entry ∈ entries, entry.namesApart := by
  induction entries with
  | nil => simp [entriesApart]
  | cons entry entries induction =>
      rw [entriesApart, Bool.and_eq_true, induction, List.forall_mem_cons]

theorem fieldsApart_iff {fields : List (String × Node)} :
    fieldsApart fields ↔ ∀ field ∈ fields, field.2.namesApart := by
  induction fields with
  | nil => simp [fieldsApart]
  | cons field fields induction =>
      rw [fieldsApart, Bool.and_eq_true, induction, List.forall_mem_cons]

theorem Value.namesApart_list {entries : List Node} (apart : (list entries).namesApart) :
    (allNamed entries → Table.KeysDistinct (byName entries)) ∧
      ∀ entry ∈ entries, entry.namesApart := by
  rw [namesApart, Bool.and_eq_true, Bool.or_eq_true, Bool.not_eq_true', decide_eq_true_eq,
    entriesApart_iff] at apart
  refine ⟨fun named => ?_, apart.2⟩
  have names : entries.map Node.name? = ((byName entries).map Prod.fst).map some := by
    rw [byName, List.map_map, List.map_map]
    refine List.map_congr_left fun entry member => ?_
    rcases allNamed_iff.mp named entry member with ⟨name, found⟩
    simp [found]
  have nodup := apart.1.resolve_left (by simp [named])
  rw [names] at nodup
  exact nodup.of_map

/-! ## The laws of an equivalence -/

namespace Node

section
variable {first second third : Node}

/-- What is neither a list nor a map is compared by equality. -/
theorem equivalent_of_kind (notList : first.kind ≠ .list) (notMap : first.kind ≠ .map) :
    first.equivalent second = first.same second := by
  rcases first with ⟨first, annotations⟩
  rcases second with ⟨second, annotations'⟩
  cases first with
  | list entries => cases notList rfl
  | map fields => cases notMap rfl
  | _ => cases second <;> rfl

theorem kind_of_equivalent (both : first.equivalent second) : first.kind = second.kind := by
  rcases first with ⟨first, annotations⟩
  rcases second with ⟨second, annotations'⟩
  cases first <;> cases second <;> first | rfl | cases both

theorem trans_of_kind (notList : first.kind ≠ .list) (notMap : first.kind ≠ .map)
    (both : first.equivalent second) (both' : second.equivalent third) :
    first.equivalent third := by
  have kind := kind_of_equivalent both
  rw [equivalent_of_kind notList notMap] at both ⊢
  rw [equivalent_of_kind (kind ▸ notList) (kind ▸ notMap)] at both'
  exact same_trans both both'

theorem symm_of_kind (distinct : first.keysDistinct) (notList : first.kind ≠ .list)
    (notMap : first.kind ≠ .map) (both : first.equivalent second) : second.equivalent first := by
  have kind := kind_of_equivalent both
  rw [equivalent_of_kind notList notMap] at both
  rw [equivalent_of_kind (kind ▸ notList) (kind ▸ notMap)]
  exact same_symm distinct both

theorem self_of_kind (distinct : first.keysDistinct) (numbers : first.withoutNaN)
    (notList : first.kind ≠ .list) (notMap : first.kind ≠ .map) : first.equivalent first := by
  rw [equivalent_of_kind notList notMap]
  exact first.same_self distinct numbers

end

theorem equivalent_trans {first second third : Node} (distinct : first.keysDistinct)
    (both : first.equivalent second) (both' : second.equivalent third) :
    first.equivalent third := by
  induction first using Node.induction generalizing second third with
  | list entries annotations induction =>
      rcases second with ⟨second, annotations'⟩
      rcases third with ⟨third, annotations''⟩
      cases second with
      | list others =>
          cases third with
          | list others' =>
              have distinct' := entriesDistinct_iff.mp distinct
              by_cases named : allNamed entries
              · have named' := allNamed_of_equivalent both named
                have named'' := allNamed_of_equivalent both' named'
                have all := ((Value.equivalent_named_iff named named').mp both).trans
                  ((Value.equivalent_named_iff named' named'').mp both')
                refine (Value.equivalent_named_iff named named'').mpr ?_
                exact all.imp fun field listed _ ⟨_, here, there⟩ =>
                  have member := mem_of_mem_byName listed
                  induction field.2 member (distinct' field.2 member) here there
              · have unnamed : ¬allNamed others := fun named' =>
                  named (allNamed_of_equivalent' distinct both named')
                have all := forall₂_comp
                  ((Value.equivalent_unnamed_iff fun all => named all.1).mp both)
                  ((Value.equivalent_unnamed_iff fun all => unnamed all.1).mp both')
                refine (Value.equivalent_unnamed_iff fun all => named all.1).mpr ?_
                exact forall₂_imp_mem all fun entry member _ ⟨_, here, there⟩ =>
                  induction entry member (distinct' entry member) here there
          | _ => cases both'
      | _ => cases both
  | map fields annotations induction =>
      rcases second with ⟨second, annotations'⟩
      rcases third with ⟨third, annotations''⟩
      cases second with
      | map others =>
          cases third with
          | map others' =>
              have distinct' := member_of_fieldsDistinct distinct
              have all := (Value.equivalent_map_iff.mp both).trans
                (Value.equivalent_map_iff.mp both')
              exact Value.equivalent_map_iff.mpr (all.imp fun field member _ ⟨_, here, there⟩ =>
                induction field member (distinct' field member) here there)
          | _ => cases both'
      | _ => cases both
  | lambda parameters body captured annotations _ =>
      exact trans_of_kind nofun nofun both both'
  | scalar value annotations notList notMap _ => exact trans_of_kind notList notMap both both'

theorem equivalent_symm {left right : Node} (distinct : left.keysDistinct)
    (apart : left.namesApart) (both : left.equivalent right) : right.equivalent left := by
  induction left using Node.induction generalizing right with
  | list entries annotations induction =>
      rcases right with ⟨right, annotations'⟩
      cases right with
      | list others =>
          have distinct' := entriesDistinct_iff.mp distinct
          rcases Value.namesApart_list apart with ⟨names, apart⟩
          by_cases named : allNamed entries
          · have named' := allNamed_of_equivalent both named
            have back : Table.Matches (fun left right => right.equivalent left) (byName entries)
                (byName others) :=
              ((Value.equivalent_named_iff named named').mp both).imp fun field listed _ =>
                have member := mem_of_mem_byName listed
                induction field.2 member (distinct' field.2 member) (apart field.2 member)
            exact (Value.equivalent_named_iff named' named).mpr (back.symm (names named))
          · have entries := (Value.equivalent_unnamed_iff fun all => named all.1).mp both
            refine (Value.equivalent_unnamed_iff fun all => named all.2).mpr (List.Forall₂.flip ?_)
            exact forall₂_imp_mem entries fun entry member _ =>
              induction entry member (distinct' entry member) (apart entry member)
      | _ => cases both
  | map fields annotations induction =>
      rcases right with ⟨right, annotations'⟩
      cases right with
      | map others =>
          have distinct' := member_of_fieldsDistinct distinct
          have apart := fieldsApart_iff.mp apart
          have back : Table.Matches (fun left right => right.equivalent left) fields others :=
            (Value.equivalent_map_iff.mp both).imp fun field member _ =>
              induction field member (distinct' field member) (apart field member)
          exact Value.equivalent_map_iff.mpr (back.symm (keys_nodup distinct))
      | _ => cases both
  | lambda parameters body captured annotations _ =>
      exact symm_of_kind distinct nofun nofun both
  | scalar value annotations notList notMap _ =>
      exact symm_of_kind distinct notList notMap both

theorem equivalent_self {node : Node} (distinct : node.keysDistinct) (numbers : node.withoutNaN)
    (apart : node.namesApart) : node.equivalent node := by
  induction node using Node.induction with
  | list entries annotations induction =>
      have distinct' := entriesDistinct_iff.mp distinct
      have numbers := entriesWithoutNaN_iff.mp numbers
      rcases Value.namesApart_list apart with ⟨names, apart⟩
      have each : ∀ entry ∈ entries, entry.equivalent entry := fun entry member =>
        induction entry member (distinct' entry member) (numbers entry member) (apart entry member)
      by_cases named : allNamed entries
      · refine (Value.equivalent_named_iff named named).mpr (.refl (names named) ?_)
        exact fun field listed => each field.2 (mem_of_mem_byName listed)
      · exact (Value.equivalent_unnamed_iff fun all => named all.1).mpr (List.forall₂_same.mpr each)
  | map fields annotations induction =>
      have distinct' := member_of_fieldsDistinct distinct
      have numbers := fieldsWithoutNaN_iff.mp numbers
      have apart := fieldsApart_iff.mp apart
      refine Value.equivalent_map_iff.mpr (.refl (keys_nodup distinct) fun field member => ?_)
      exact induction field member (distinct' field member) (numbers field member)
        (apart field member)
  | lambda parameters body captured annotations _ =>
      exact self_of_kind distinct numbers nofun nofun
  | scalar value annotations notList notMap _ =>
      exact self_of_kind distinct numbers notList notMap

/-- Entries of one name are all compared with the first of them, so a list is equivalent to itself
if and only if its names tell entries apart that are not equivalent. -/
theorem list_equivalent_self_iff {entries : List Node} {annotations : Annotations}
    (distinct : ∀ entry ∈ entries, entry.keysDistinct)
    (numbers : ∀ entry ∈ entries, entry.withoutNaN)
    (apart : ∀ entry ∈ entries, entry.namesApart) :
    (mk (.list entries) annotations).equivalent (.mk (.list entries) annotations) ↔
      (allNamed entries → ∀ entry ∈ entries, ∀ other ∈ entries, entry.name? = other.name? →
        entry.equivalent other) := by
  by_cases named : allNamed entries
  · refine (Value.equivalent_named_iff named named).trans ⟨fun matches' _ => ?_, fun all => ?_⟩
    · intro entry member other member' same
      rcases allNamed_iff.mp named entry member with ⟨name, found⟩
      rcases matches'.found _ ((mem_byName named).mpr ⟨found, member⟩) with ⟨first, held, here⟩
      rcases matches'.found _ ((mem_byName named).mpr ⟨same ▸ found, member'⟩) with
        ⟨first', held', there⟩
      cases held.symm.trans held'
      exact equivalent_trans (distinct entry member) here
        (equivalent_symm (distinct other member') (apart other member') there)
    · refine ⟨rfl, fun ⟨name, entry⟩ listed => ?_⟩
      rcases (mem_byName named).mp listed with ⟨found, member⟩
      have present : name ∈ (byName entries).map Prod.fst := List.mem_map.mpr ⟨_, listed, rfl⟩
      rcases Option.isSome_iff_exists.mp (Table.mem_keys_iff.mp present) with ⟨first, held⟩
      rcases (mem_byName named).mp (member_of_lookup held) with ⟨found', member'⟩
      exact ⟨first, held, all named entry member first member' (found.trans found'.symm)⟩
  · refine iff_of_true ?_ fun all => absurd all named
    refine (Value.equivalent_unnamed_iff fun all => named all.1).mpr (List.forall₂_same.mpr ?_)
    exact fun entry member =>
      equivalent_self (distinct entry member) (numbers entry member) (apart entry member)

end Node

/-! The operators compare values of one kind by equivalence. -/

theorem Value.operate_equal {left right : Value} (same : left.kind = right.kind) :
    operate .equal left right = .ok (.boolean (left.equivalent right)) := by
  cases left <;> cases right <;> first | rfl | cases same

namespace Node

/-- Equivalence is transitive. Where the names within a list are all different it is symmetric, and
reflexive but for decimals that are no number; a list with a name that stands twice is equivalent
to itself only if the entries of one name are equivalent. So are the comparisons by operators. -/
theorem equivalent_laws {first second third : Node} (distinct : first.keysDistinct)
    (distinct' : second.keysDistinct) :
    (first.equivalent second → second.equivalent third → first.equivalent third) ∧
    (first.namesApart → second.namesApart →
      first.equivalent second = second.equivalent first ∧
        (first.kind = second.kind → Value.operate .equal first.value second.value =
          Value.operate .equal second.value first.value)) ∧
    (first.withoutNaN → first.namesApart → first.equivalent first ∧
      Value.operate .equal first.value first.value = .ok (.boolean true)) ∧
    (∀ entries, first.value = .list entries → first.withoutNaN →
      (∀ entry ∈ entries, entry.namesApart) → (first.equivalent first ↔ (allNamed entries →
        ∀ entry ∈ entries, ∀ other ∈ entries, entry.name? = other.name? →
          entry.equivalent other))) := by
  rcases first with ⟨left, annotations⟩
  rcases second with ⟨right, annotations'⟩
  refine ⟨equivalent_trans distinct, fun apart apart' => ?_, fun numbers apart => ?_,
    fun entries list numbers apart => ?_⟩
  · have same : (mk left annotations).equivalent (.mk right annotations') =
        (mk right annotations').equivalent (.mk left annotations) :=
      Bool.eq_iff_iff.mpr ⟨equivalent_symm distinct apart, equivalent_symm distinct' apart'⟩
    refine ⟨same, fun kind => ?_⟩
    have kinds : left.kind = right.kind := kind
    rw [value_mk, value_mk, Value.operate_equal kinds, Value.operate_equal kinds.symm]
    exact congrArg (Except.ok <| Value.boolean ·) same
  · have self := equivalent_self distinct numbers apart
    refine ⟨self, ?_⟩
    rw [value_mk, Value.operate_equal rfl]
    exact congrArg (Except.ok <| Value.boolean ·) self
  · rw [value_mk] at list
    subst list
    exact list_equivalent_self_iff (entriesDistinct_iff.mp distinct)
      (entriesWithoutNaN_iff.mp numbers) apart

/-- A map with a name and a value. -/
def called (name : String) (value : Int64) : Node :=
  .mk (.map [("name", .mk (.text name) {}), ("v", .mk (.integer value) {})]) {}

theorem equivalent_laws_swapped :
    let left : Node := .mk (.list [called "a" 1, called "b" 2]) {}
    let right : Node := .mk (.list [called "b" 2, called "a" 1]) {}
    left.equivalent left ∧ left.equivalent right = right.equivalent left ∧
      Value.operate .equal left.value left.value = .ok (.boolean true) := by
  intro left right
  have laws := @equivalent_laws left right left (by decide) (by decide)
  have same := laws.2.1 (by decide) (by decide)
  have self := laws.2.2.1 (by decide) (by decide)
  exact ⟨laws.1 (by decide) (by decide), same.1, self.2⟩

/-- Only the first entry of a name is looked at: where a name stands twice, a list need not be
equivalent to itself, and two lists may be equivalent from one side only. -/
theorem equivalent_beside_first :
    let two : Node := .mk (.list [called "a" 1, called "a" 2]) {}
    let same : Node := .mk (.list [called "a" 1, called "a" 1]) {}
    let different : Node := .mk (.list [called "a" 1, called "b" 1]) {}
    two.equivalent two = false ∧
      Value.operate .equal two.value two.value = .ok (.boolean false) ∧
      same.equivalent different = true ∧ different.equivalent same = false :=
  ⟨by decide, rfl, by decide, by decide⟩

end Node

end Stencil
