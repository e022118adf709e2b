import Stencil.Proofs.Node.Matching
import Stencil.Proofs.Node.Selective

namespace Stencil

/-! What holds of all nodes when it holds of the collections of nodes of which it holds, and of
the nodes without others below them. -/

@[elab_as_elim]
theorem Node.induction {motive : Node → Prop}
    (list : ∀ entries annotations, (∀ entry ∈ entries, motive entry) →
      motive (.mk (.list entries) annotations))
    (map : ∀ fields annotations, (∀ field ∈ fields, motive field.2) →
      motive (.mk (.map fields) annotations))
    (lambda : ∀ parameters body captured annotations, (∀ name ∈ captured, motive name.2) →
      motive (.mk (.lambda parameters body captured) annotations))
    (scalar : ∀ value annotations, value.kind ≠ .list → value.kind ≠ .map →
      value.kind ≠ .lambda → motive (.mk value annotations)) (node : Node) : motive node :=
  match node with
  | .mk (.list entries) annotations =>
      list entries annotations fun entry member =>
        have := List.sizeOf_lt_of_mem member
        Node.induction list map lambda scalar entry
  | .mk (.map fields) annotations =>
      map fields annotations fun field member =>
        have := List.sizeOf_lt_of_mem member
        have : sizeOf field.2 < sizeOf field := by cases field; simp
        Node.induction list map lambda scalar field.2
  | .mk (.lambda parameters body captured) annotations =>
      lambda parameters body captured annotations fun name member =>
        have := List.sizeOf_lt_of_mem member
        have : sizeOf name.2 < sizeOf name := by cases name; simp
        Node.induction list map lambda scalar name.2
  | .mk .null annotations | .mk (.boolean _) annotations | .mk (.integer _) annotations
  | .mk (.decimal _) annotations | .mk (.text _) annotations
  | .mk (.expression _) annotations => scalar _ annotations nofun nofun nofun
termination_by sizeOf node

/-! ## Symmetry and transitivity -/

theorem keys_nodup {fields : List (String × Node)} (distinct : fieldsDistinct fields) :
    (fields.map Prod.fst).Nodup := by
  induction fields with
  | nil => exact List.nodup_nil
  | cons field fields induction =>
      rcases field with ⟨key, field⟩
      rcases fieldsDistinct_cons.mp distinct with ⟨fresh, _, others⟩
      rw [List.map_cons, List.nodup_cons]
      refine ⟨fun member => ?_, induction others⟩
      rcases List.mem_map.mp member with ⟨other, there, same⟩
      have absent := List.lookup_eq_none_iff.mp fresh other there
      simp [same] at absent

namespace Number.Decimal

theorem same_symm {left right : Decimal} (both : left.same right) : right.same left := by
  simp only [same, Bool.and_eq_true, Bool.or_eq_true, beq_iff_eq] at both ⊢
  exact ⟨⟨both.1.2, both.1.1⟩, both.2.imp Eq.symm And.symm⟩

theorem same_trans {first second third : Decimal} (both : first.same second)
    (both' : second.same third) : first.same third := by
  simp only [same, Bool.and_eq_true, Bool.or_eq_true, beq_iff_eq] at both both' ⊢
  refine ⟨⟨both.1.1, both'.1.2⟩, ?_⟩
  rcases both.2 with rfl | zeros
  · exact both'.2
  · rcases both'.2 with rfl | zeros'
    · exact .inr zeros
    · exact .inr ⟨zeros.1, zeros'.2⟩

end Number.Decimal

theorem sameEntries_iff {lefts rights : List Node} :
    sameEntries lefts rights ↔ List.Forall₂ (fun left right => left.same right) lefts rights := by
  induction lefts generalizing rights with
  | nil => cases rights <;> simp [sameEntries]
  | cons left lefts induction => cases rights <;> simp [sameEntries, induction]

theorem sameFields_iff {lefts rights : List (String × Node)} :
    sameFields lefts rights ↔ ∀ field ∈ lefts,
      ∃ right, rights.lookup field.1 = some right ∧ field.2.same right := by
  induction lefts with
  | nil => simp [sameFields]
  | cons field lefts induction =>
      rcases field with ⟨key, left⟩
      rw [sameFields, Bool.and_eq_true, induction, List.forall_mem_cons]
      cases rights.lookup key <;> simp

theorem sameCaptured_iff {lefts rights : List (String × Node)} :
    sameCaptured lefts rights ↔
      List.Forall₂ (fun left right => left.1 = right.1 ∧ left.2.same right.2) lefts rights := by
  induction lefts generalizing rights with
  | nil => cases rights <;> simp [sameCaptured]
  | cons left lefts induction => cases rights <;> simp [sameCaptured, induction]

namespace Value

theorem same_map_iff {lefts rights : List (String × Node)} :
    (map lefts).same (.map rights) ↔
      Table.Matches (fun left right => left.same right) lefts rights := by
  rw [same, Bool.and_eq_true, beq_iff_eq, sameFields_iff]
  exact ⟨fun both => ⟨both.1, both.2⟩, fun both => ⟨both.length, both.found⟩⟩

theorem same_lambda_iff {parameters parameters' : List String} {body body' : Expression}
    {captured captured' : List (String × Node)} :
    (lambda parameters body captured).same (.lambda parameters' body' captured') ↔
      parameters = parameters' ∧ body = body' ∧
        List.Forall₂ (fun left right => left.1 = right.1 ∧ left.2.same right.2)
          captured captured' := by
  rw [same, Bool.and_eq_true, Bool.and_eq_true, beq_iff_eq, beq_iff_eq, sameCaptured_iff, and_assoc]

theorem scalar_of_same {left right : Value} (notList : left.kind ≠ .list)
    (notMap : left.kind ≠ .map) (notLambda : left.kind ≠ .lambda) (both : left.same right) :
    left = right ∨ ∃ number number', left = .decimal number ∧ right = .decimal number' ∧
      number.same number' := by
  cases left with
  | list entries => cases notList rfl
  | map fields => cases notMap rfl
  | lambda parameters body captured => cases notLambda rfl
  | decimal number =>
      cases right with
      | decimal number' => exact .inr ⟨number, number', rfl, rfl, both⟩
      | _ => cases both
  | null =>
      cases right with
      | null => exact .inl rfl
      | _ => cases both
  | _ =>
      cases right <;> first | cases both | exact .inl (congrArg _ (eq_of_beq both))

end Value

namespace Node

theorem same_symm {left right : Node} (distinct : left.keysDistinct) (both : left.same right) :
    right.same left := by
  induction left using Node.induction generalizing right with
  | list entries annotations induction =>
      rcases right with ⟨right, annotations'⟩
      cases right with
      | list others =>
          have distinct := entriesDistinct_iff.mp distinct
          refine sameEntries_iff.mpr (List.Forall₂.flip ?_)
          exact forall₂_imp_mem (sameEntries_iff.mp both) fun entry member other =>
            induction entry member (distinct entry member)
      | _ => cases both
  | map fields annotations induction =>
      rcases right with ⟨right, annotations'⟩
      cases right with
      | map others =>
          have distinct' := member_of_fieldsDistinct distinct
          have back : Table.Matches (fun left right => right.same left) fields others :=
            (Value.same_map_iff.mp both).imp fun field member _ =>
              induction field member (distinct' field member)
          exact Value.same_map_iff.mpr (back.symm (keys_nodup distinct))
      | _ => cases both
  | lambda parameters body captured annotations induction =>
      rcases right with ⟨right, annotations'⟩
      cases right with
      | lambda parameters' body' captured' =>
          rcases Value.same_lambda_iff.mp both with ⟨rfl, rfl, names⟩
          have distinct := capturedDistinct_iff.mp distinct
          refine Value.same_lambda_iff.mpr ⟨rfl, rfl, List.Forall₂.flip ?_⟩
          exact forall₂_imp_mem names fun name member other same =>
            ⟨same.1.symm, induction name member (distinct name member) same.2⟩
      | _ => cases both
  | scalar value annotations notList notMap notLambda =>
      rcases right with ⟨right, annotations'⟩
      rcases Value.scalar_of_same notList notMap notLambda both with
        rfl | ⟨number, number', rfl, rfl, same⟩
      · exact both
      · exact Number.Decimal.same_symm same

theorem same_trans {first second third : Node} (both : first.same second)
    (both' : second.same third) : first.same third := by
  induction first using Node.induction generalizing second third with
  | list entries annotations induction =>
      rcases second with ⟨second, annotations'⟩
      rcases third with ⟨third, annotations''⟩
      cases second with
      | list others =>
          cases third with
          | list others' =>
              have all := forall₂_comp (sameEntries_iff.mp both) (sameEntries_iff.mp both')
              exact sameEntries_iff.mpr (forall₂_imp_mem all fun entry member _ ⟨_, here, there⟩ =>
                induction entry member here there)
          | _ => cases both'
      | _ => cases both
  | map fields annotations induction =>
      rcases second with ⟨second, annotations'⟩
      rcases third with ⟨third, annotations''⟩
      cases second with
      | map others =>
          cases third with
          | map others' =>
              have all := (Value.same_map_iff.mp both).trans (Value.same_map_iff.mp both')
              exact Value.same_map_iff.mpr (all.imp fun field member _ ⟨_, here, there⟩ =>
                induction field member here there)
          | _ => cases both'
      | _ => cases both
  | lambda parameters body captured annotations induction =>
      rcases second with ⟨second, annotations'⟩
      rcases third with ⟨third, annotations''⟩
      cases second with
      | lambda parameters' body' captured' =>
          cases third with
          | lambda parameters'' body'' captured'' =>
              rcases Value.same_lambda_iff.mp both with ⟨rfl, rfl, names⟩
              rcases Value.same_lambda_iff.mp both' with ⟨rfl, rfl, names'⟩
              refine Value.same_lambda_iff.mpr ⟨rfl, rfl, ?_⟩
              have all := forall₂_comp names names'
              exact forall₂_imp_mem all fun name member _ ⟨_, here, there⟩ =>
                ⟨here.1.trans there.1, induction name member here.2 there.2⟩
          | _ => cases both'
      | _ => cases both
  | scalar value annotations notList notMap notLambda =>
      rcases second with ⟨second, annotations'⟩
      rcases third with ⟨third, annotations''⟩
      rcases Value.scalar_of_same notList notMap notLambda both with
        rfl | ⟨number, number', rfl, rfl, same⟩
      · exact both'
      · cases third with
        | decimal number'' => exact Number.Decimal.same_trans same both'
        | _ => cases both'

end Node

/-! ## Resolved trees

A tree that equals a resolved one is resolved. Equality compares the sizes of two maps and
looks for the fields of the first one in the second; as no key stands twice, this finds all. -/

/-- A map that has an equal field for each one of a map of its size has no others. -/
theorem lookup_of_sameFields {left right : List (String × Node)} {key : String} {node : Node}
    (distinct : fieldsDistinct left) (length : left.length = right.length)
    (same : sameFields left right) (held : right.lookup key = some node) :
    ∃ other, left.lookup key = some other ∧ other.same node :=
  have matches' : Table.Matches (fun left right => left.same right) left right :=
    ⟨length, sameFields_iff.mp same⟩
  matches'.lookup_of_right (keys_nodup distinct) held

mutual
theorem Value.isResolved_of_same : ∀ {left right : Value}, left.same right → left.keysDistinct →
    right.keysDistinct → left.isResolved → right.isResolved
  | .list left, right, same, distinct, distinct', resolved => by
      cases right with
      | list right => exact entriesResolved_of_same same distinct distinct' resolved
      | _ => cases same
  | .map left, right, same, distinct, distinct', resolved => by
      cases right with
      | map right =>
          rw [Value.same, Bool.and_eq_true, beq_iff_eq] at same
          refine fieldsResolved_iff.mpr fun field member => ?_
          have held := lookup_of_distinct distinct' member
          rcases lookup_of_sameFields distinct same.1 same.2 held with ⟨other, there, equal⟩
          have distinct'' := member_of_fieldsDistinct distinct' _ member
          exact fieldsResolved_of_same distinct distinct'' resolved there equal
      | _ => cases same
  | .text left, right, same, _, _, resolved => by
      cases right with
      | text right =>
          rw [Value.same, beq_iff_eq] at same
          rwa [← same]
      | _ => cases same
  | .expression _, _, _, _, _, resolved => by cases resolved
  | .null, right, same, _, _, _ | .boolean _, right, same, _, _, _
  | .integer _, right, same, _, _, _ | .decimal _, right, same, _, _, _
  | .lambda _ _ _, right, same, _, _, _ => by cases right <;> first | rfl | cases same

theorem Node.isResolved_of_same : ∀ {left right : Node}, left.same right → left.keysDistinct →
    right.keysDistinct → left.isResolved → right.isResolved
  | .mk _ _, .mk _ _, same, distinct, distinct', resolved =>
      Value.isResolved_of_same same distinct distinct' resolved

theorem entriesResolved_of_same : ∀ {left right : List Node}, sameEntries left right →
    entriesDistinct left → entriesDistinct right → entriesResolved left → entriesResolved right
  | [], [], _, _, _, _ => rfl
  | [], _ :: _, same, _, _, _ => by cases same
  | _ :: _, [], same, _, _, _ => by cases same
  | _ :: _, _ :: _, same, distinct, distinct', resolved => by
      rw [sameEntries, Bool.and_eq_true] at same
      rw [entriesDistinct, Bool.and_eq_true] at distinct distinct'
      rw [entriesResolved, Bool.and_eq_true] at resolved ⊢
      exact ⟨Node.isResolved_of_same same.1 distinct.1 distinct'.1 resolved.1,
        entriesResolved_of_same same.2 distinct.2 distinct'.2 resolved.2⟩

theorem fieldsResolved_of_same : ∀ {left : List (String × Node)} {key : String} {other node : Node},
    fieldsDistinct left → node.keysDistinct → fieldsResolved left → left.lookup key = some other →
      other.same node → node.isResolved
  | [], _, _, _, _, _, _, held, _ => by cases held
  | (first, field) :: left, key, other, node, distinct, distinct', resolved, held, same => by
      rcases fieldsDistinct_cons.mp distinct with ⟨_, here, others⟩
      rw [fieldsResolved, Bool.and_eq_true] at resolved
      rw [List.lookup_cons] at held
      split at held
      · cases held
        exact Node.isResolved_of_same same here distinct' resolved.1
      · exact fieldsResolved_of_same others distinct' resolved.2 held same
end

end Stencil
