import Stencil.Proofs.Expression.Writing
import Stencil.Proofs.Node.Equality
import Stencil.Proofs.Resolution.Around
import Stencil.Proofs.Resolution.ListNames

namespace Stencil

/-! The places of a document are its positions, each of them once and in the order of the
document. The two paths of a place lead back to the node that stands there, so what is listed as
unresolved can be found again, and nothing else is unresolved. -/

/-- The place of a child. -/
def Place.below (place : Place) : Step × Node → Place
  | (.field key, _) => place.field key
  | (.entry index, node) => place.entry index node

namespace Node

/-! ## Children

The functions on trees look at the entries of a list and at the fields of a map in turn. Seen as
lists of children, both are the same. -/

/-- What stands directly below a node, with the steps that lead there. -/
def children (node : Node) : List (Step × Node) :=
  match node.value with
  | .list entries => entries.zipIdx.map fun (entry, index) => (.entry index, entry)
  | .map fields => fields.map fun (key, field) => (.field key, field)
  | _ => []

theorem forall_mem_children_list {holds : Node → Prop} {entries : List Node}
    {annotations : Annotations} :
    (∀ below ∈ (Node.mk (.list entries) annotations).children, holds below.2) ↔
      ∀ entry ∈ entries, holds entry := by
  constructor
  · intro each entry member
    rcases List.mem_iff_getElem?.mp member with ⟨index, held⟩
    exact each (.entry index, entry)
      (List.mem_map.mpr ⟨(entry, index), List.mk_mem_zipIdx_iff_getElem?.mpr held, rfl⟩)
  · intro each below member
    rcases List.mem_map.mp member with ⟨⟨entry, index⟩, listed, rfl⟩
    exact each entry (List.mem_of_getElem? (List.mk_mem_zipIdx_iff_getElem?.mp listed))

theorem forall_mem_children_map {holds : Node → Prop} {fields : List (String × Node)}
    {annotations : Annotations} :
    (∀ below ∈ (Node.mk (.map fields) annotations).children, holds below.2) ↔
      ∀ field ∈ fields, holds field.2 :=
  List.forall_mem_map

theorem sizeOf_lt_of_mem_children {node : Node} {below : Step × Node}
    (member : below ∈ node.children) : sizeOf below.2 < sizeOf node := by
  rcases node with ⟨value, annotations⟩
  cases value with
  | list entries =>
      rcases List.mem_map.mp member with ⟨⟨entry, index⟩, listed, rfl⟩
      have := List.sizeOf_lt_of_mem
        (List.mem_of_getElem? (List.mk_mem_zipIdx_iff_getElem?.mp listed))
      simp
      omega
  | map fields =>
      rcases List.mem_map.mp member with ⟨⟨key, field⟩, listed, rfl⟩
      have := List.sizeOf_lt_of_mem listed
      simp at this ⊢
      omega
  | _ => cases member

/-- What holds of a node when it holds of its children holds of every node. -/
theorem childInduction {motive : Node → Prop}
    (step : ∀ node : Node, (∀ below ∈ node.children, motive below.2) → motive node)
    (node : Node) : motive node :=
  step node fun below member =>
    have := sizeOf_lt_of_mem_children member
    childInduction step below.2
termination_by sizeOf node

theorem below?_of_mem_children {node : Node} {below : Step × Node} (distinct : node.keysDistinct)
    (member : below ∈ node.children) : node.below? below.1 = some below.2 := by
  rcases node with ⟨value, annotations⟩
  cases value with
  | list entries =>
      rcases List.mem_map.mp member with ⟨⟨entry, index⟩, listed, rfl⟩
      rw [below?_entry]
      exact List.mk_mem_zipIdx_iff_getElem?.mp listed
  | map fields =>
      rcases List.mem_map.mp member with ⟨⟨key, field⟩, listed, rfl⟩
      rw [below?_field]
      exact lookup_of_distinct distinct listed
  | _ => cases member

theorem mem_children_of_below? {node child : Node} {step : Step}
    (found : node.below? step = some child) : (step, child) ∈ node.children := by
  rcases below?_cases found with
    ⟨key, fields, annotations, rfl, rfl, held⟩ | ⟨index, entries, annotations, rfl, rfl, held⟩
  · exact List.mem_map.mpr ⟨(key, child), member_of_lookup held, rfl⟩
  · exact List.mem_map.mpr ⟨(child, index), List.mk_mem_zipIdx_iff_getElem?.mpr held, rfl⟩

/-- The steps to the children are distinct. -/
theorem children_steps {node : Node} (distinct : node.keysDistinct) :
    (node.children.map Prod.fst).Nodup := by
  rcases node with ⟨value, annotations⟩
  cases value with
  | list entries =>
      have steps : (children (.mk (.list entries) annotations)).map Prod.fst =
          (entries.zipIdx.map Prod.snd).map Step.entry := by
        rw [children, Node.value_mk, List.map_map, List.map_map]
        rfl
      rw [steps, List.zipIdx_map_snd]
      exact List.Nodup.map (fun _ _ same => Step.entry.inj same) List.nodup_range'
  | map fields =>
      have steps : (children (.mk (.map fields) annotations)).map Prod.fst =
          (fields.map Prod.fst).map Step.field := by
        rw [children, Node.value_mk, List.map_map, List.map_map]
        rfl
      rw [steps]
      exact List.Nodup.map (fun _ _ same => Step.field.inj same) (keys_nodup distinct)
  | _ => exact List.nodup_nil

theorem keysDistinct_of_below? {node child : Node} {step : Step} (distinct : node.keysDistinct)
    (found : node.below? step = some child) : child.keysDistinct := by
  rcases below?_cases found with
    ⟨key, fields, annotations, rfl, rfl, held⟩ | ⟨index, entries, annotations, rfl, rfl, held⟩
  · exact member_of_fieldsDistinct distinct _ (member_of_lookup held)
  · exact entriesDistinct_iff.mp distinct child (List.mem_of_getElem? held)

end Node

theorem entryPlaces_eq (place : Place) (index : Nat) (entries : List Node) :
    entryPlaces place index entries = (entries.zipIdx index).flatMap fun (entry, index) =>
      entry.placesFrom (place.entry index entry) := by
  induction entries generalizing index with
  | nil => rfl
  | cons entry entries induction =>
      rw [entryPlaces, List.zipIdx_cons, List.flatMap_cons, induction]

theorem fieldPlaces_eq (place : Place) (fields : List (String × Node)) :
    fieldPlaces place fields = fields.flatMap fun (key, field) =>
      field.placesFrom (place.field key) := by
  induction fields with
  | nil => rfl
  | cons field fields induction =>
      rcases field with ⟨key, field⟩
      rw [fieldPlaces, List.flatMap_cons, induction]

theorem Node.placesFrom_eq (place : Place) (node : Node) :
    node.placesFrom place = (place, node) ::
      node.children.flatMap fun below => below.2.placesFrom (place.below below) := by
  rcases node with ⟨value, annotations⟩
  rw [placesFrom]
  congr 1
  cases value with
  | list entries =>
      rw [children, Node.value_mk, List.flatMap_map]
      exact entryPlaces_eq place 0 entries
  | map fields =>
      rw [children, Node.value_mk, List.flatMap_map]
      exact fieldPlaces_eq place fields
  | _ => rfl

/-! ## Positions -/

mutual
def Value.routesBelow : Value → List (List Step)
  | .list entries => entryRoutes 0 entries
  | .map fields => fieldRoutes fields
  | _ => []

/-- The positions in a node, in the order of the document. -/
def Node.routes : Node → List (List Step)
  | .mk value _ => [] :: value.routesBelow

def entryRoutes (index : Nat) : List Node → List (List Step)
  | [] => []
  | entry :: entries =>
      entry.routes.map (.entry index :: ·) ++ entryRoutes (index + 1) entries

def fieldRoutes : List (String × Node) → List (List Step)
  | [] => []
  | (key, field) :: fields => field.routes.map (.field key :: ·) ++ fieldRoutes fields
end

theorem entryRoutes_eq (index : Nat) (entries : List Node) :
    entryRoutes index entries = (entries.zipIdx index).flatMap fun (entry, index) =>
      entry.routes.map (.entry index :: ·) := by
  induction entries generalizing index with
  | nil => rfl
  | cons entry entries induction =>
      rw [entryRoutes, List.zipIdx_cons, List.flatMap_cons, induction]

theorem fieldRoutes_eq (fields : List (String × Node)) :
    fieldRoutes fields = fields.flatMap fun (key, field) => field.routes.map (.field key :: ·) := by
  induction fields with
  | nil => rfl
  | cons field fields induction =>
      rcases field with ⟨key, field⟩
      rw [fieldRoutes, List.flatMap_cons, induction]

namespace Node

theorem routes_eq (node : Node) :
    node.routes = [] :: node.children.flatMap fun below => below.2.routes.map (below.1 :: ·) := by
  rcases node with ⟨value, annotations⟩
  rw [routes]
  congr 1
  cases value with
  | list entries =>
      rw [children, Node.value_mk, List.flatMap_map]
      exact entryRoutes_eq 0 entries
  | map fields =>
      rw [children, Node.value_mk, List.flatMap_map]
      exact fieldRoutes_eq fields
  | _ => rfl

/-- A list of positions that has every position of a document once, and none before one above
it. -/
structure IsTour (document : Node) (routes : List (List Step)) : Prop where
  complete (route : List Step) : route ∈ routes ↔ (document.at? route).isSome
  once : routes.Nodup
  parents : routes.Pairwise fun earlier later => ¬ later <+: earlier

theorem mem_routes_iff {node : Node} (distinct : node.keysDistinct) (route : List Step) :
    route ∈ node.routes ↔ (node.at? route).isSome := by
  induction route generalizing node with
  | nil =>
      rw [routes_eq]
      simp [at?]
  | cons step route induction =>
      rw [routes_eq, List.mem_cons, List.mem_flatMap]
      constructor
      · rintro (impossible | ⟨⟨step', child⟩, member, listed⟩)
        · cases impossible
        · rcases List.mem_map.mp listed with ⟨route', inner, same⟩
          cases same
          have found := below?_of_mem_children distinct member
          rw [at?_of_below? found]
          exact (induction (keysDistinct_of_below? distinct found)).mp inner
      · intro reached
        rcases Option.isSome_iff_exists.mp reached with ⟨leaf, reached⟩
        rcases at?_cons reached with ⟨child, found, rest⟩
        refine .inr ⟨(step, child), mem_children_of_below? found, List.mem_map.mpr ⟨route, ?_, rfl⟩⟩
        exact (induction (keysDistinct_of_below? distinct found)).mpr
          (Option.isSome_iff_exists.mpr ⟨leaf, rest⟩)

theorem routes_parents {node : Node} (distinct : node.keysDistinct) :
    node.routes.Pairwise fun earlier later => ¬ later <+: earlier := by
  induction node using childInduction with
  | step node induction =>
      rw [routes_eq, List.pairwise_cons, List.pairwise_flatMap]
      refine ⟨?_, ?_, ?_⟩
      · intro route listed before
        rcases List.mem_flatMap.mp listed with ⟨below, _, listed⟩
        rcases List.mem_map.mp listed with ⟨rest, _, rfl⟩
        cases List.prefix_nil.mp before
      · intro below member
        have found := below?_of_mem_children distinct member
        refine List.Pairwise.map _ (fun earlier later apart => ?_)
          (induction below member (keysDistinct_of_below? distinct found))
        rw [List.prefix_cons_inj]
        exact apart
      -- Below different children the first steps differ.
      · have steps := List.pairwise_map.mp (children_steps distinct)
        refine steps.imp fun {first second} apart => ?_
        intro earlier listed later listed' before
        rcases List.mem_map.mp listed with ⟨rest, _, rfl⟩
        rcases List.mem_map.mp listed' with ⟨rest', _, rfl⟩
        exact apart (List.cons_prefix_cons.mp before).1.symm

theorem routes_tour {document : Node} (distinct : document.keysDistinct) :
    document.IsTour document.routes where
  complete := mem_routes_iff distinct
  once := by
    refine (routes_parents distinct).imp fun {earlier later} apart same => apart ?_
    rw [same]
  parents := routes_parents distinct

/-! ## Places and positions -/

/-- The place of a position and the node there. -/
def shown? (place : Place) (node : Node) : List Step → Option (Place × Node)
  | [] => some (place, node)
  | step :: route =>
      (node.below? step).bind fun child => child.shown? (place.below (step, child)) route

theorem shown?_cons {place : Place} {node : Node} {step : Step} {route : List Step}
    {shown : Place × Node} (reached : node.shown? place (step :: route) = some shown) :
    ∃ child, node.below? step = some child ∧
      child.shown? (place.below (step, child)) route = some shown :=
  Option.bind_eq_some_iff.mp reached

theorem at?_of_shown? {place shown : Place} {node leaf : Node} {route : List Step}
    (reached : node.shown? place route = some (shown, leaf)) : node.at? route = some leaf := by
  induction route generalizing node place with
  | nil =>
      cases reached
      rfl
  | cons step route induction =>
      rcases shown?_cons reached with ⟨child, found, rest⟩
      rw [at?_of_below? found]
      exact induction rest

theorem mem_places_of_at? {node leaf : Node} {route : List Step} (place : Place)
    (reached : node.at? route = some leaf) :
    ∃ shown, (shown, leaf) ∈ node.placesFrom place := by
  induction route generalizing node place with
  | nil =>
      cases reached
      rw [placesFrom_eq]
      exact ⟨place, List.mem_cons_self⟩
  | cons step route induction =>
      rcases at?_cons reached with ⟨child, found, rest⟩
      rcases induction (place.below (step, child)) rest with ⟨shown, listed⟩
      rw [placesFrom_eq]
      exact ⟨shown, List.mem_cons_of_mem _
        (List.mem_flatMap.mpr ⟨(step, child), mem_children_of_below? found, listed⟩)⟩

/-- The places are those of the positions. -/
theorem placesFrom_routes {node : Node} (distinct : node.keysDistinct) (place : Place) :
    (node.placesFrom place).map some = node.routes.map (node.shown? place) := by
  induction node using childInduction generalizing place with
  | step node induction =>
      rw [placesFrom_eq, routes_eq, List.map_cons, List.map_cons, List.map_flatMap,
        List.map_flatMap]
      congr 1
      rw [List.flatMap_def, List.flatMap_def]
      refine congrArg List.flatten (List.map_congr_left fun below member => ?_)
      have found := below?_of_mem_children distinct member
      rw [induction below member (keysDistinct_of_below? distinct found), List.map_map]
      refine List.map_congr_left fun route _ => ?_
      rw [Function.comp_apply, shown?, found, Option.bind_some]

theorem shown?_of_mem_places {node leaf : Node} {place shown : Place} (distinct : node.keysDistinct)
    (listed : (shown, leaf) ∈ node.placesFrom place) :
    ∃ route, node.shown? place route = some (shown, leaf) := by
  have member : some (shown, leaf) ∈ (node.placesFrom place).map some :=
    List.mem_map.mpr ⟨_, listed, rfl⟩
  rw [placesFrom_routes distinct, List.mem_map] at member
  exact member.imp fun _ => And.right

/-! ## Finding a node again -/

/-- The number of entries of a list. -/
def entryCount (node : Node) : Nat :=
  match node.value with
  | .list entries => entries.length
  | _ => 0

/-- No list has more entries than there are indices. -/
def Counted (document : Node) : Prop :=
  ∀ route node, document.at? route = some node → node.entryCount ≤ 18446744073709551616

/-- If the node is a list, its entries can be told apart by their names, and no name reads like an
index. -/
def namesTell (node : Node) : Bool :=
  match node.value with
  | .list entries =>
      decide (entryNames entries).Nodup &&
        (entryNames entries).all fun name => (indexOf? name).isNone
  | _ => true

theorem namesTell_list {entries : List Node} {annotations : Annotations} :
    (Node.mk (.list entries) annotations).namesTell ↔
      (entryNames entries).Nodup ∧ ∀ name ∈ entryNames entries, indexOf? name = none := by
  rw [namesTell, value_mk, Bool.and_eq_true, decide_eq_true_iff, List.all_eq_true]
  simp only [Option.isNone_iff_eq_none]

end Node

theorem indexOf?_indexText {index : Nat} (fits : index < 18446744073709551616) :
    indexOf? (indexText index) = some index := by
  have text : (indexText index).toList = '[' :: (Nat.toDigits 10 index ++ [']']) := by
    unfold indexText
    rw [String.toList_append, String.toList_append, Nat.toString_eq_repr, Nat.toList_repr]
    rfl
  unfold indexOf?
  rw [text]
  simp only [List.reverse_append, List.reverse_singleton, List.singleton_append,
    List.reverse_reverse, readUnsigned?_toDigits (Nat.le_of_lt_succ fits)]

/-- Where the names are distinct, an entry is found by its own one. -/
theorem find?_name {entries : List Node} {entry : Node} {index : Nat} {name : String}
    (distinct : (entryNames entries).Nodup) (held : entries[index]? = some entry)
    (named : entry.name? = some name) :
    (entries.find? fun entry => entry.name? = some name) = some entry := by
  induction entries generalizing index with
  | nil => cases held
  | cons first entries induction =>
      rw [entryNames_cons] at distinct
      cases index with
      | zero =>
          cases held
          exact List.find?_cons_of_pos (decide_eq_true named)
      | succ index =>
          rw [List.getElem?_cons_succ] at held
          have member : name ∈ entryNames entries :=
            List.mem_filterMap.mpr ⟨entry, List.mem_of_getElem? held, named⟩
          have other : first.name? ≠ some name := by
            intro same
            rw [same, Option.toList_some, List.singleton_append, List.nodup_cons] at distinct
            exact distinct.1 member
          rw [List.find?_cons_of_neg (by simpa using other)]
          exact induction (List.nodup_append.mp distinct).2.1 held

namespace Node

theorem find_cons_of_child {node child : Node} {step : String} (rest : List String)
    (held : node.child step = .found child) : node.find (step :: rest) = child.find rest := by
  rw [find, held]

theorem child_field {fields : List (String × Node)} {annotations : Annotations} {key : String}
    {field : Node} (held : fields.lookup key = some field) :
    (Node.mk (.map fields) annotations).child key = .found field := by
  simp [child, isLocallyResolved, Value.isLocallyResolved, held]

theorem child_index {entries : List Node} {annotations : Annotations} {index : Nat} {entry : Node}
    (fits : index < 18446744073709551616) (held : entries[index]? = some entry) :
    (Node.mk (.list entries) annotations).child (indexText index) = .found entry := by
  have entry : listEntry entries (indexText index) = some entry := by
    rw [listEntry, indexOf?_indexText fits]
    exact held
  simp [child, isLocallyResolved, Value.isLocallyResolved, entry, Lookup.ofOption]

theorem child_stepName {entries : List Node} {annotations : Annotations} {index : Nat}
    {entry : Node} (tell : (Node.mk (.list entries) annotations).namesTell)
    (fits : index < 18446744073709551616) (held : entries[index]? = some entry) :
    (Node.mk (.list entries) annotations).child (stepName index entry) = .found entry := by
  cases named : entry.name? with
  | none =>
      rw [stepName, named, Option.getD_none]
      exact child_index fits held
  | some name =>
      rcases namesTell_list.mp tell with ⟨distinct, read⟩
      have listed : name ∈ entryNames entries :=
        List.mem_filterMap.mpr ⟨entry, List.mem_of_getElem? held, named⟩
      have entry : listEntry entries name = some entry := by
        rw [listEntry, read name listed]
        exact find?_name distinct held named
      simp [stepName, named, child, isLocallyResolved, Value.isLocallyResolved, entry,
        Lookup.ofOption]

theorem Counted.below? {node child : Node} {step : Step} (counted : node.Counted)
    (found : node.below? step = some child) : child.Counted := by
  intro route leaf reached
  refine counted (step :: route) leaf ?_
  rw [at?_of_below? found]
  exact reached

theorem Counted.index {entries : List Node} {annotations : Annotations} {index : Nat}
    {entry : Node} (counted : (Node.mk (.list entries) annotations).Counted)
    (held : entries[index]? = some entry) : index < 18446744073709551616 := by
  have fits : entries.length ≤ 18446744073709551616 := counted [] _ rfl
  have inside := (List.getElem?_eq_some_iff.mp held).1
  omega

theorem counted_of_places {document : Node}
    (fits : ∀ found ∈ document.places, found.2.entryCount ≤ 18446744073709551616) :
    document.Counted := by
  intro route node reached
  rcases mem_places_of_at? .root reached with ⟨place, listed⟩
  exact fits (place, node) listed

/-- The context of a place leads to the node there. -/
theorem find_context {node leaf : Node} {place shown : Place} {route : List Step}
    (counted : node.Counted) (reached : node.shown? place route = some (shown, leaf)) :
    ∃ rest, shown.context = place.context ++ rest ∧ node.find rest = .found leaf := by
  induction route generalizing node place with
  | nil =>
      cases reached
      exact ⟨[], (List.append_nil _).symm, rfl⟩
  | cons step route induction =>
      rcases shown?_cons reached with ⟨child, found, rest⟩
      rcases induction (counted.below? found) rest with ⟨steps, context, leads⟩
      rcases below?_cases found with
        ⟨key, fields, annotations, rfl, rfl, held⟩ | ⟨index, entries, annotations, rfl, rfl, held⟩
      · refine ⟨key :: steps, context.trans (List.append_assoc _ [key] steps), ?_⟩
        rw [find_cons_of_child steps (child_field held), leads]
      · refine ⟨indexText index :: steps,
          context.trans (List.append_assoc _ [indexText index] steps), ?_⟩
        rw [find_cons_of_child steps (child_index (counted.index held) held), leads]

/-- So does the logical path, where the names tell the entries apart. -/
theorem find_logical {node leaf : Node} {place shown : Place} {route : List Step}
    (counted : node.Counted) (tell : ∀ list ∈ node.above route, list.namesTell)
    (reached : node.shown? place route = some (shown, leaf)) :
    ∃ rest, shown.logical = place.logical ++ rest ∧ node.find rest = .found leaf := by
  induction route generalizing node place with
  | nil =>
      cases reached
      exact ⟨[], (List.append_nil _).symm, rfl⟩
  | cons step route induction =>
      rcases shown?_cons reached with ⟨child, found, rest⟩
      rw [above_cons found, List.forall_mem_cons] at tell
      rcases induction (counted.below? found) tell.2 rest with ⟨steps, logical, leads⟩
      rcases below?_cases found with
        ⟨key, fields, annotations, rfl, rfl, held⟩ | ⟨index, entries, annotations, rfl, rfl, held⟩
      · refine ⟨key :: steps, logical.trans (List.append_assoc _ [key] steps), ?_⟩
        rw [find_cons_of_child steps (child_field held), leads]
      · refine ⟨stepName index child :: steps,
          logical.trans (List.append_assoc _ [stepName index child] steps), ?_⟩
        rw [find_cons_of_child steps (child_stepName tell.1 (counted.index held) held), leads]

end Node

/-! ## What is unresolved -/

/-- An expression, or a text with an embedded one. -/
def Value.isPending : Value → Bool
  | .expression _ => true
  | .text value => (Text.embedded? value).isSome
  | _ => false

theorem Value.isLocallyResolved_eq (value : Value) :
    value.isLocallyResolved = !value.isPending := by
  cases value with
  | text value => exact (Option.not_isSome (Text.embedded? value)).symm
  | _ => rfl

theorem Node.isLocallyResolved_iff {node : Node} :
    node.isLocallyResolved ↔ node.value.isPending = false := by
  rw [isLocallyResolved, Value.isLocallyResolved_eq, Bool.not_eq_true']

namespace Node

theorem unresolved_eq (document : Node) :
    document.unresolved = (document.places.filter fun found => found.2.value.isPending).map
      fun (place, node) =>
        ⟨UnresolvedNode.expressionText node.value, node.source, place, node.issue⟩ := by
  rw [unresolved]
  induction document.places with
  | nil => rfl
  | cons found places induction =>
      rcases found with ⟨place, node⟩
      have here : node.isLocallyResolved = !node.value.isPending :=
        Value.isLocallyResolved_eq node.value
      rw [List.filterMap_cons, induction, List.filter_cons]
      cases pending : node.value.isPending <;> simp [here, pending]

theorem unresolved_eq_nil_iff {document : Node} :
    document.unresolved = [] ↔ document.isResolved :=
  ⟨isResolved_of_unresolved, unresolved_of_isResolved⟩

end Node

namespace Resolution

/-- The list of unresolved nodes is exact. The places of a document are those of its positions,
every position once and before those below it. The context of a place leads to the node there, and
so does the logical path if the names tell the entries of all lists on the way apart. What is listed
as unresolved are the expressions and the texts with an embedded one among these nodes, in this
order, and there are none exactly when the document is resolved; so the document of a whole
resolution has none at any position. -/
theorem unresolved_exact :
    (∀ document : Node, document.keysDistinct → document.Counted →
      document.IsTour document.routes ∧
      document.places.map some = document.routes.map (document.shown? .root) ∧
      (∀ route place node, document.shown? .root route = some (place, node) →
        document.at? route = some node ∧
        document.find place.context = .found node ∧
        ((∀ list ∈ document.above route, list.namesTell) →
          document.find place.logical = .found node)) ∧
      document.unresolved = (document.places.filter fun found => found.2.value.isPending).map
        (fun (place, node) =>
          ⟨UnresolvedNode.expressionText node.value, node.source, place, node.issue⟩) ∧
      (document.unresolved = [] ↔ document.isResolved)) ∧
    ∀ answers stubs template resolution,
      whole answers stubs template = .ok (.ok resolution) →
      ∀ route node, resolution.document.at? route = some node → node.value.isPending = false := by
  constructor
  · intro document distinct counted
    refine ⟨Node.routes_tour distinct, Node.placesFrom_routes distinct .root, ?_,
      document.unresolved_eq, Node.unresolved_eq_nil_iff⟩
    intro route place node shown
    refine ⟨Node.at?_of_shown? shown, ?_, fun tell => ?_⟩
    · rcases Node.find_context counted shown with ⟨rest, context, leads⟩
      rw [context]
      exact leads
    · rcases Node.find_logical counted tell shown with ⟨rest, logical, leads⟩
      rw [logical]
      exact leads
  · intro answers stubs template resolution result route node reached
    have resolved := (final_of_whole result).2
    rcases Node.reach_of_at? reached {} with ⟨site, reached⟩
    have here := Node.isResolved_of_reach resolved reached
    exact Node.isLocallyResolved_iff.mp (Node.isLocallyResolved_of_isResolved here)

/-- An entry that is found by its index and by its name, and a document that gets resolved. -/
theorem unresolved_exact_named :
    let name : Node := .mk (.text "web") {}
    let expression : Node := .mk (.text "(( x ))") {}
    let document : Node :=
      .mk (.map [("jobs", .mk (.list [.mk (.map [("name", name), ("run", expression)]) {}]) {})]) {}
    let literal : Node := .mk (.expression (.boolean true)) {}
    document.find ["jobs", "[0]", "run"] = .found expression ∧
      document.find ["jobs", "web", "run"] = .found expression ∧
      ∃ resolution, whole .none [] literal = .ok (.ok resolution) ∧
        resolution.document.value.isPending = false := by
  intro name expression document literal
  have distinct : document.keysDistinct := by decide
  have counted : document.Counted := Node.counted_of_places (by decide)
  have tell : ∀ list ∈ document.above [.field "jobs", .entry 0, .field "run"], list.namesTell := by
    decide
  rcases unresolved_exact.1 document distinct counted with ⟨_, _, found, _⟩
  rcases found [.field "jobs", .entry 0, .field "run"]
    ⟨["jobs", "[0]", "run"], ["jobs", "web", "run"]⟩ expression rfl with ⟨_, context, logical⟩
  refine ⟨context, logical tell, _, rfl, ?_⟩
  exact unresolved_exact.2 .none [] literal _ rfl [] _ rfl

end Resolution

end Stencil
