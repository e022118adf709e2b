import Stencil.Evaluation.Evaluate
import Stencil.Proofs.Node.Masked
import Stencil.Proofs.Node.Ordered

namespace Stencil

/-! Operators and functions are blind to some changes of their operands: to changed
annotations, and to the order of keys. Where they hand nodes on, the nodes keep what they carry; the nodes they make
carry the source of the place. -/

/-- What a look at a value shows without looking at the nodes inside. -/
def Value.surface : Value → Value
  | .list _ => .list []
  | .map _ => .map []
  | .lambda parameters body _ => .lambda parameters body []
  | value => value

/-- A change of nodes, and what it makes of their values. It goes through lists, and looking up
and comparing do not show it. -/
structure Unseen (change : Node → Node) (inside : Value → Value) : Prop where
  value : ∀ node, (change node).value = inside node.value
  surface : ∀ value, (inside value).surface = value.surface
  list : ∀ entries, inside (.list entries) = .list (entries.map change)
  map : ∀ fields, ∃ fields', inside (.map fields) = .map fields' ∧
    fields'.length = fields.length ∧ ∀ key, fields'.lookup key = (fields.lookup key).map change
  text : ∀ node text, (change node).withValue (.text text) = change (node.withValue (.text text))
  equivalent : ∀ left right, (inside left).equivalent (inside right) = left.equivalent right

/-! ## What is seen on the surface -/

namespace Value

theorem arithmetic_surface (operator : Operator) (left right : Value) :
    arithmetic operator left.surface right.surface = arithmetic operator left right := by
  cases left <;> cases right <;> rfl

theorem concatenate_surface (left right : Value) :
    concatenate left.surface right.surface = concatenate left right := by
  cases left <;> cases right <;> rfl

theorem eq_of_surface_text {value : Value} {text : String} (surface : value.surface = .text text) :
    value = .text text := by
  cases value <;> cases surface
  rfl

/-- Kinds, texts and equivalence decide. -/
theorem comparesEqual_eq (left right : Value) :
    comparesEqual left right =
      if left.kind = .null ∨ right.kind = .null then decide (left.kind = right.kind)
      else if left.kind = right.kind then left.equivalent right
      else
        match left.text?, right.text? with
        | some left, some right => left == right
        | _, _ => false := by
  cases left <;> cases right <;> rfl

section
variable {left left' right right' : Value} (first : left.surface = left'.surface)
  (second : right.surface = right'.surface)

include first second in
theorem compare_congr (operator : Operator)
    (equal : comparesEqual left right = comparesEqual left' right') :
    compare operator left right = compare operator left' right' := by
  unfold compare
  rw [equal]
  split
  · rfl
  · rfl
  · cases left <;> cases left' <;> cases first <;>
      first
      | rfl
      | (cases right <;> cases right' <;> cases second <;> rfl)

include first in
theorem decided?_congr (operator : Operator) (truth : left.truthy = left'.truthy) :
    decided? operator left = decided? operator left' := by
  unfold decided?
  rw [truth]
  cases left <;> cases left' <;> cases first <;> rfl

include first second in
theorem combine_congr (operator : Operator) (truth : left.truthy = left'.truthy)
    (truth' : right.truthy = right'.truthy) :
    combine operator left right = combine operator left' right' := by
  cases left <;> cases left' <;> cases first <;>
    cases right <;> cases right' <;> cases second <;>
    first
    | rfl
    | simp only [combine, truth, truth']

end

end Value

/-- What sees no change gives the same for arguments that become the same ones. -/
theorem blind_congr {α : Type} {change : Node → Node} {function : List Node → α}
    (blind : ∀ arguments, function (arguments.map change) = function arguments)
    {arguments arguments' : List Node} (same : arguments.map change = arguments'.map change) :
    function arguments = function arguments' := by
  rw [← blind arguments, same, blind]

namespace Unseen

variable {change : Node → Node} {inside : Value → Value} (unseen : Unseen change inside)
include unseen

/-- A look that goes no deeper than the surface. -/
theorem seen {α : Type} (look : Value → α) (shallow : ∀ value, look value.surface = look value)
    (value : Value) : look (inside value) = look value := by
  rw [← shallow, unseen.surface, shallow]

/-- The same for a look at a node that does not see what it carries. -/
theorem seenAt {α : Type} (look : Node → α)
    (shallow : ∀ value annotations, look (.mk value.surface {}) = look (.mk value annotations))
    (node : Node) : look (change node) = look node := by
  have bare (node : Node) : look (.mk node.value.surface {}) = look node := by
    cases node
    exact shallow _ _
  rw [← bare, unseen.value, unseen.surface, bare]

theorem kind (value : Value) : (inside value).kind = value.kind :=
  unseen.seen Value.kind (fun value => by cases value <;> rfl) value

theorem text? (value : Value) : (inside value).text? = value.text? :=
  unseen.seen Value.text? (fun value => by cases value <;> rfl) value

theorem isLocallyResolved (node : Node) :
    (change node).isLocallyResolved = node.isLocallyResolved :=
  unseen.seenAt Node.isLocallyResolved (fun value _ => by cases value <;> rfl) node

theorem truthy (value : Value) : (inside value).truthy = value.truthy := by
  have surface := unseen.surface value
  cases value with
  | list entries =>
      rw [unseen.list]
      cases entries <;> rfl
  | map fields =>
      rcases unseen.map fields with ⟨fields', changed, lengths, _⟩
      rw [changed]
      cases fields <;> cases fields' <;> first | rfl | cases lengths
  | _ =>
      generalize inside _ = value at surface ⊢
      cases value <;> cases surface
      rfl

/-! ## Operators -/

theorem comparesEqual (left right : Value) :
    Value.comparesEqual (inside left) (inside right) = Value.comparesEqual left right := by
  rw [Value.comparesEqual_eq, Value.comparesEqual_eq, unseen.kind, unseen.kind,
    unseen.equivalent, unseen.text?, unseen.text?]

theorem operate (operator : Operator) (left right : Value) :
    Value.operate operator (inside left) (inside right) = Value.operate operator left right := by
  have first := unseen.surface left
  have second := unseen.surface right
  unfold Value.operate
  rw [← Value.arithmetic_surface, ← Value.concatenate_surface, first, second,
    Value.arithmetic_surface, Value.concatenate_surface,
    Value.compare_congr first second operator (unseen.comparesEqual left right)]

theorem decided? (operator : Operator) (left : Value) :
    Value.decided? operator (inside left) = Value.decided? operator left :=
  Value.decided?_congr (unseen.surface left) operator (unseen.truthy left)

theorem combine (operator : Operator) (left right : Value) :
    Value.combine operator (inside left) (inside right) = Value.combine operator left right :=
  Value.combine_congr (unseen.surface left) (unseen.surface right) operator (unseen.truthy left)
    (unseen.truthy right)

/-! ## Fields -/

theorem get? (node : Node) (key : String) :
    (change node).get? key = (node.get? key).map change := by
  have surface := unseen.surface node.value
  unfold Node.get?
  rw [unseen.value]
  generalize node.value = value at surface ⊢
  cases value with
  | map fields =>
      rcases unseen.map fields with ⟨fields', changed, _, lookups⟩
      rw [changed]
      exact lookups key
  | _ =>
      generalize inside _ = value at surface ⊢
      cases value <;> cases surface
      rfl

theorem findText? (node : Node) (key : String) :
    (change node).findText? key = node.findText? key := by
  unfold Node.findText?
  rw [unseen.get?]
  cases node.get? key with
  | none => rfl
  | some found =>
      have surface := unseen.surface found.value
      simp only [Option.map_some, unseen.value]
      generalize inside found.value = value at surface ⊢
      generalize found.value = value' at surface ⊢
      cases value <;> cases value' <;> cases surface <;> rfl

theorem stepName (index : Nat) (entry : Node) :
    Stencil.stepName index (change entry) = Stencil.stepName index entry := by
  unfold Stencil.stepName Node.name?
  rw [unseen.findText?]

/-! ## Arguments -/

theorem flatten (arguments : List Node) :
    Arguments.flatten (arguments.map change) = (Arguments.flatten arguments).map change := by
  unfold Arguments.flatten
  rw [List.flatMap_map, List.map_flatMap]
  congr 1
  funext argument
  have surface := unseen.surface argument.value
  rw [unseen.value]
  generalize argument.value = value at surface ⊢
  cases value with
  | list entries => rw [unseen.list]
  | _ =>
      generalize inside _ = value at surface ⊢
      cases value <;> cases surface
      rfl

/-- What a function makes of all arguments, which it is blind to. -/
theorem flatten_mapM {α ε : Type} {function : Node → Except ε α}
    (blind : ∀ entry, function (change entry) = function entry) (arguments : List Node) :
    (Arguments.flatten (arguments.map change)).mapM function =
      (Arguments.flatten arguments).mapM function := by
  rw [unseen.flatten, List.mapM_map]
  simp only [Function.comp_def, blind]

theorem flatten_mapM_congr {α ε : Type} {function : Node → Except ε α}
    (blind : ∀ entry, function (change entry) = function entry) {arguments arguments' : List Node}
    (same : arguments.map change = arguments'.map change) :
    (Arguments.flatten arguments).mapM function =
      (Arguments.flatten arguments').mapM function := by
  rw [← unseen.flatten_mapM blind, same, unseen.flatten_mapM blind]

theorem argumentText (function : Builtin) (position : Nat) (argument : Node) :
    Arguments.text function position (change argument) =
      Arguments.text function position argument :=
  unseen.seenAt (Arguments.text function position) (fun value _ => by cases value <;> rfl)
    argument

omit unseen in
theorem checkCount (function : Builtin) (arguments : List Node) :
    Arguments.checkCount function (arguments.map change) =
      Arguments.checkCount function arguments := by
  simp [Arguments.checkCount]

/-! ## Texts -/

theorem split (source : Option String) (arguments : List Node) :
    TextFunction.split source (arguments.map change) = TextFunction.split source arguments := by
  match arguments with
  | [] | [_] | _ :: _ :: _ :: _ => simp [TextFunction.split]
  | [separator, text] => simp [TextFunction.split, unseen.argumentText]

theorem scalarText (entry : Node) :
    TextFunction.scalarText (change entry) = TextFunction.scalarText entry :=
  unseen.seenAt TextFunction.scalarText (fun value _ => by cases value <;> rfl) entry

theorem join (arguments : List Node) :
    TextFunction.join (arguments.map change) = TextFunction.join arguments := by
  cases arguments with
  | nil => rfl
  | cons separator parts =>
      simp only [List.map_cons, TextFunction.join, unseen.argumentText,
        unseen.flatten_mapM unseen.scalarText]

theorem length (arguments : List Node) :
    TextFunction.length (arguments.map change) = TextFunction.length arguments := by
  match arguments with
  | [] | _ :: _ :: _ => simp [TextFunction.length]
  | [argument] =>
      have surface := unseen.surface argument.value
      simp only [List.map_cons, List.map_nil, TextFunction.length, unseen.value]
      generalize argument.value = value at surface ⊢
      cases value with
      | list entries => simp only [unseen.list, List.length_map]
      | map fields =>
          rcases unseen.map fields with ⟨fields', changed, lengths, _⟩
          simp only [changed, lengths]
      | _ =>
          generalize inside _ = value at surface ⊢
          cases value <;> cases surface
          rfl

/-- Trimming a list keeps what its entries carry. -/
theorem trimEntry (cutset : Option String) (entry : Node) :
    TextFunction.trimEntry cutset (change entry) =
      (TextFunction.trimEntry cutset entry).map change := by
  have surface := unseen.surface entry.value
  have text := unseen.text entry
  unfold TextFunction.trimEntry
  rw [unseen.value]
  generalize entry.value = value at surface ⊢
  cases value with
  | text held =>
      rw [Value.eq_of_surface_text surface]
      exact congrArg Except.ok (text _)
  | _ =>
      generalize inside _ = value at surface ⊢
      cases value <;> cases surface
      rfl

theorem trimEntries (cutset : Option String) (entries : List Node) :
    (entries.map change).mapM (TextFunction.trimEntry cutset) =
      (entries.mapM (TextFunction.trimEntry cutset)).map (List.map change) := by
  induction entries with
  | nil => rfl
  | cons entry entries induction =>
      simp only [List.map_cons, List.mapM_cons, unseen.trimEntry, induction]
      cases TextFunction.trimEntry cutset entry with
      | error issue => rfl
      | ok entry => cases entries.mapM (TextFunction.trimEntry cutset) <;> rfl

theorem trimValue (cutset : Option String) (value : Value) :
    TextFunction.trimValue cutset (inside value) =
      (TextFunction.trimValue cutset value).map inside := by
  have surface := unseen.surface value
  cases value with
  | text held =>
      have same (text : String) : inside (.text text) = .text text :=
        Value.eq_of_surface_text (unseen.surface (.text text))
      rw [same]
      exact congrArg Except.ok (same _).symm
  | list entries =>
      rw [unseen.list]
      simp only [TextFunction.trimValue, unseen.trimEntries]
      cases entries.mapM (TextFunction.trimEntry cutset) with
      | error issue => rfl
      | ok trimmed => exact congrArg Except.ok (unseen.list trimmed).symm
  | _ =>
      generalize inside _ = value at surface ⊢
      cases value <;> cases surface
      rfl

theorem trim (arguments : List Node) :
    TextFunction.trim (arguments.map change) = (TextFunction.trim arguments).map inside := by
  match arguments with
  | [] | _ :: _ :: _ :: _ => simp [TextFunction.trim, Except.map]
  | [argument] => simp [TextFunction.trim, unseen.value, unseen.trimValue]
  | [argument, cutset] =>
      simp only [List.map_cons, List.map_nil, TextFunction.trim, unseen.argumentText,
        unseen.value, unseen.trimValue]
      cases Arguments.text .trim 1 cutset <;> rfl

/-! ## Addresses -/

theorem network (function : Builtin) (arguments : List Node) :
    AddressFunction.network function (arguments.map change) =
      AddressFunction.network function arguments := by
  match arguments with
  | [] | _ :: _ :: _ => simp [AddressFunction.network]
  | [argument] => simp [AddressFunction.network, unseen.argumentText]

theorem least (arguments : List Node) :
    AddressFunction.least (arguments.map change) = AddressFunction.least arguments := by
  unfold AddressFunction.least
  rw [unseen.network]

theorem greatest (arguments : List Node) :
    AddressFunction.greatest (arguments.map change) = AddressFunction.greatest arguments := by
  unfold AddressFunction.greatest
  rw [unseen.network]

theorem count (arguments : List Node) :
    AddressFunction.count (arguments.map change) = AddressFunction.count arguments := by
  unfold AddressFunction.count
  rw [unseen.network]

theorem indexArgument (entry : Node) :
    AddressFunction.indexArgument (change entry) = AddressFunction.indexArgument entry :=
  unseen.seenAt AddressFunction.indexArgument (fun value _ => by cases value <;> rfl) entry

theorem staticRange (spec : Node) :
    AddressFunction.staticRange (change spec) = AddressFunction.staticRange spec :=
  unseen.seenAt AddressFunction.staticRange (fun value _ => by cases value <;> rfl) spec

theorem subnetRanges (subnet : Node) :
    AddressFunction.subnetRanges (change subnet) = AddressFunction.subnetRanges subnet := by
  unfold AddressFunction.subnetRanges
  rw [unseen.isLocallyResolved, unseen.get?]
  cases subnet.get? "static" with
  | none => rfl
  | some statics =>
      have ranges := unseen.flatten_mapM unseen.staticRange [statics]
      simp only [List.map_cons, List.map_nil] at ranges
      simp only [Option.map_some, ranges]

/-! ## Resource pools -/

theorem jobInstances (pool : String) (index : Nat) (job : Node) :
    Binding.jobInstances pool index (change job) = Binding.jobInstances pool index job := by
  unfold Binding.jobInstances
  rw [unseen.isLocallyResolved, unseen.get?, unseen.get?, unseen.stepName]
  split
  · rfl
  · cases job.get? "resource_pool" with
    | none => rfl
    | some named =>
        have surface := unseen.surface named.value
        simp only [Option.map_some, unseen.isLocallyResolved, unseen.value]
        split
        · rfl
        · generalize named.value = value at surface ⊢
          cases value with
          | text name =>
              rw [Value.eq_of_surface_text surface]
              simp only
              split
              · rfl
              · cases job.get? "instances" with
                | none => rfl
                | some count =>
                    have surface := unseen.surface count.value
                    simp only [Option.map_some, unseen.isLocallyResolved, unseen.value]
                    split
                    · rfl
                    · generalize inside count.value = value at surface ⊢
                      generalize count.value = held at surface ⊢
                      cases value <;> cases held <;> cases surface <;> rfl
          | _ =>
              generalize inside _ = value at surface ⊢
              cases value <;> cases surface
              rfl

theorem poolSize (pool : String) (total : Int64) (index : Nat) (jobs : List Node) :
    Binding.poolSize pool total index (jobs.map change) =
      Binding.poolSize pool total index jobs := by
  induction jobs generalizing total index with
  | nil => rfl
  | cons job jobs induction =>
      simp only [List.map_cons, Binding.poolSize, unseen.jobInstances, induction]

/-! ## The outside -/

theorem setVariables (known : List (String × String)) (source : Option String)
    (position : Nat) (entries : List Node) :
    HostFunction.setVariables known source position (entries.map change) =
      HostFunction.setVariables known source position entries := by
  induction entries generalizing position with
  | nil => rfl
  | cons entry entries induction =>
      simp only [List.map_cons, HostFunction.setVariables, unseen.argumentText, induction]

theorem settings (known : List (String × String)) (source : Option String)
    (arguments : List Node) :
    HostFunction.settings known source (arguments.map change) =
      HostFunction.settings known source arguments := by
  unfold HostFunction.settings
  rw [unseen.flatten, unseen.setVariables]
  match arguments with
  | [] | _ :: _ :: _ => rfl
  | [single] =>
      have surface := unseen.surface single.value
      simp only [List.map_cons, List.map_nil, unseen.value]
      generalize inside single.value = value at surface ⊢
      generalize single.value = held at surface ⊢
      cases value <;> cases held <;> cases surface <;> rfl

theorem fileArguments (arguments : List Node) :
    HostFunction.fileArguments (arguments.map change) = HostFunction.fileArguments arguments := by
  match arguments with
  | [] | _ :: _ :: _ :: _ => simp [HostFunction.fileArguments]
  | [path] => simp [HostFunction.fileArguments, unseen.argumentText]
  | [path, kind] => simp [HostFunction.fileArguments, unseen.argumentText]

theorem commandText (entry : Node) :
    HostFunction.commandText (change entry) = HostFunction.commandText entry :=
  unseen.seenAt HostFunction.commandText (fun value _ => by cases value <;> rfl) entry

end Unseen

/-! ## The order of keys -/

theorem Node.unseen_ordered : Unseen ordered Value.ordered where
  value := value_ordered
  surface value := by cases value <;> rfl
  list entries := congrArg Value.list (entriesOrdered_eq_map entries)
  map fields := ⟨tableOrdered fields, rfl, length_tableOrdered fields,
    fun key => lookup_tableOrdered key fields⟩
  text node text := by cases node; rfl
  equivalent := Value.equivalent_ordered

/-! ## Changed annotations -/

theorem Node.unseen_masked (aspects : Aspects) :
    Unseen (masked aspects) (Value.masked aspects) where
  value := Node.value_masked aspects
  surface value := by cases value <;> rfl
  list entries := congrArg Value.list (entriesMasked_eq_map aspects entries)
  map fields := ⟨fieldsMasked aspects fields, rfl, length_fieldsMasked aspects fields,
    fun key => lookup_fieldsMasked aspects key fields⟩
  text node text := by cases node; rfl
  equivalent := Value.equivalent_masked aspects

section
variable (aspects : Aspects)

namespace Template

/-- Not even the written form of a map shows them. -/
theorem argumentText_masked (verb : Char) (value : Value) :
    Directive.argumentText verb (value.masked aspects) = Directive.argumentText verb value := by
  have json := Value.json_masked aspects value
  cases value with
  | list entries | map fields =>
      simp only [Value.masked] at json ⊢
      unfold Directive.argumentText
      split <;> simp_all [Value.text?, Value.kind]
  | lambda parameters body captured =>
      unfold Directive.argumentText
      split <;> simp_all [Value.masked, Value.text?, Value.kind]
  | _ => rfl

theorem fill_masked (pieces : List Piece) (arguments : List Node) :
    fill pieces (arguments.map (Node.masked aspects)) = fill pieces arguments := by
  induction pieces generalizing arguments with
  | nil => cases arguments <;> simp [fill]
  | cons piece rest induction =>
      cases piece with
      | literal character => simp only [fill, induction]
      | incomplete | overflow => simp only [fill]
      | directive directive =>
          cases arguments with
          | nil => rfl
          | cons argument arguments =>
              simp only [List.map_cons, fill, Node.value_masked, argumentText_masked, induction]

theorem render_masked (template : String) (arguments : List Node) :
    render template (arguments.map (Node.masked aspects)) = render template arguments :=
  fill_masked aspects _ arguments

end Template

namespace TextFunction

theorem format_masked (arguments : List Node) :
    format (arguments.map (Node.masked aspects)) = format arguments := by
  cases arguments with
  | nil => rfl
  | cons template arguments =>
      simp only [List.map_cons, format, (Node.unseen_masked aspects).argumentText,
        Template.render_masked]

theorem error_masked (arguments : List Node) :
    error (arguments.map (Node.masked aspects)) = error arguments := by
  cases arguments with
  | nil => rfl
  | cons template arguments =>
      simp only [List.map_cons, error, (Node.unseen_masked aspects).argumentText,
        Template.render_masked]

end TextFunction

end

end Stencil
