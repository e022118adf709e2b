import Stencil.Proofs.Evaluation.Inheritance
import Stencil.Proofs.Expression.Placing
import Stencil.Proofs.Resolution.Heritage
import Stencil.Proofs.Resolution.Report

namespace Stencil

/-! Where the expressions of a document come from. As long as no expression makes texts, all that
waits in a document is a text of the template or of a stub, or was read from one, and carries the
name of the document that has this text. -/

/-! ## Inert expressions -/

mutual
/-- Nothing in the expression makes a text: there are no calls, lambdas and mappings, no texts are
put together, and no literal embeds an expression. -/
def Expression.isInert : Expression → Bool
  | .text value => (Text.embedded? value).isNone
  | .list entries => allInert entries
  | .group inner | .not inner | .prefer inner => inner.isInert
  | .binary operator left right =>
      operator != .add && operator != .concatenation && left.isInert && right.isInert
  | .conditional condition consequence alternative =>
      condition.isInert && consequence.isInert && alternative.isInert
  | .call _ _ | .lambda _ _ | .mapping _ _ => false
  | _ => true

def allInert : List Expression → Bool
  | [] => true
  | entry :: entries => entry.isInert && allInert entries
end

mutual
/-- An expression is inert at every place or at none. -/
theorem Expression.isInert_moved (place : List String) :
    ∀ expression : Expression, (expression.moved place).isInert = expression.isInert
  | .nil | .boolean _ | .integer _ | .text _ | .reference _ | .merge _ _ _ | .auto _
  | .call _ _ | .lambda _ _ | .mapping _ _ => rfl
  | .list entries => allInert_moved place entries
  | .group inner | .not inner | .prefer inner => inner.isInert_moved place
  | .binary _ left right => by
      rw [Expression.moved, Expression.isInert, Expression.isInert, left.isInert_moved place,
        right.isInert_moved place]
  | .conditional condition consequence alternative => by
      rw [Expression.moved, Expression.isInert, Expression.isInert, condition.isInert_moved place,
        consequence.isInert_moved place, alternative.isInert_moved place]

theorem allInert_moved (place : List String) :
    ∀ entries : List Expression, allInert (allMoved place entries) = allInert entries
  | [] => rfl
  | entry :: entries => by
      rw [allMoved, allInert, allInert, entry.isInert_moved place, allInert_moved place entries]
end

/-! ## Traced trees -/

/-- Every expression in a tree, and every text that embeds one, has an origin. -/
inductive Node.Traced (origin : Option String → Value → Prop) : Node → Prop where
  | intro {node : Node} (here : node.value.isPending → origin node.source node.value)
      (below : ∀ below ∈ node.children, Traced origin below.2) : Traced origin node

variable {origin : Option String → Value → Prop}

theorem hereditary_traced : Hereditary (Node.Traced origin) where
  list := by
    intro entries annotations
    rw [← @Node.forall_mem_children_list _ entries annotations]
    constructor
    · rintro ⟨_, below⟩
      exact below
    · exact .intro (fun pending => by cases pending)
  map := by
    intro fields annotations
    rw [← @Node.forall_mem_children_map _ fields annotations]
    constructor
    · rintro ⟨_, below⟩
      exact below
    · exact .intro (fun pending => by cases pending)

namespace Node

theorem Traced.here {node : Node} (traced : node.Traced origin) (pending : node.value.isPending) :
    origin node.source node.value := by
  cases traced with
  | intro here below => exact here pending

/-- Only the value counts, and the source where it is an expression itself. -/
theorem Traced.congr {node other : Node} (traced : node.Traced origin)
    (value : other.value = node.value)
    (source : node.value.isPending → other.source = node.source) : other.Traced origin := by
  rcases traced with ⟨here, below⟩
  rcases node with ⟨_, annotations⟩
  rcases other with ⟨_, annotations'⟩
  cases value
  exact .intro (fun pending => (source pending).symm ▸ here pending) below

theorem Traced.places {node : Node} (traced : node.Traced origin) (place : Place) :
    ∀ found ∈ node.placesFrom place, found.2.value.isPending →
      origin found.2.source found.2.value := by
  induction traced generalizing place with
  | @intro node here below induction =>
      rw [placesFrom_eq, List.forall_mem_cons]
      refine ⟨here, fun found listed => ?_⟩
      rcases List.mem_flatMap.mp listed with ⟨child, member, listed⟩
      exact induction child member _ found listed

theorem traced_of_places {node : Node} {place : Place}
    (all : ∀ found ∈ node.placesFrom place, found.2.value.isPending →
      origin found.2.source found.2.value) : node.Traced origin := by
  induction node using childInduction generalizing place with
  | step node induction =>
      rw [placesFrom_eq, List.forall_mem_cons] at all
      exact .intro all.1 fun child member => induction child member fun found listed =>
        all.2 found (List.mem_flatMap.mpr ⟨child, member, listed⟩)

theorem traced_of_isResolved {node : Node} (resolved : node.isResolved) : node.Traced origin := by
  refine @traced_of_places _ node .root fun found listed pending => ?_
  rw [isLocallyResolved_iff.mp (node.placesFrom_resolved .root resolved found listed)] at pending
  cases pending

end Node

/-- What can be the origin of an expression: it has a name, and what is read from a text has the
origin of the text and is inert. -/
structure IsOrigin (origin : Option String → Value → Prop) : Prop where
  named {source : Option String} {value : Value} (traced : origin source value) : source.isSome
  read {node : Node} {path : List String} {expression : Expression}
    (traced : origin node.source node.value)
    (reads : node.expression? path = some (.ok expression)) :
    origin node.source (.expression expression) ∧ expression.isInert

/-! ## Evaluation -/

/-- A traced value. If it is itself an expression, the report names its source. -/
structure Report.Traces (origin : Option String → Value → Prop) (node : Node) (report : Report) :
    Prop where
  traced : node.Traced origin
  source : node.value.isPending → report.source = node.source

theorem Report.traces_of_isResolved {node : Node} (report : Report) (resolved : node.isResolved) :
    report.Traces origin node where
  traced := Node.traced_of_isResolved resolved
  source pending := by
    rw [Node.isLocallyResolved_iff.mp (Node.isLocallyResolved_of_isResolved resolved)] at pending
    cases pending

/-- What was reported before hides no source. -/
theorem Report.Traces.join {node : Node} {before report later : Report}
    (traces : report.Traces origin node) (known : IsOrigin origin)
    (source : later.source = (report.source <|> before.source)) : later.Traces origin node where
  traced := traces.traced
  source pending := by
    rcases Option.isSome_iff_exists.mp (known.named (traces.traced.here pending)) with ⟨name, named⟩
    rw [source, traces.source pending, named]
    rfl

namespace Value

/-- Operators that put no texts together make nothing that embeds an expression. -/
theorem operate_resolved {operator : Operator} {left right result : Value}
    (noSum : operator ≠ .add) (noText : operator ≠ .concatenation)
    (computed : operate operator left right = .ok result) : result.isResolved := by
  refine operate_holds (motive := (isResolved ·)) (fun _ => rfl) (fun _ => rfl)
    (fun place => ?_) (fun joins _ _ => ?_) computed
  · exact Option.isNone_iff_eq_none.mpr (Text.embedded?_of_isUnopened place.print_unopened)
  · rcases joins with same | same
    · exact absurd same noSum
    · exact absurd same noText

theorem combine_resolved (operator : Operator) (left right : Value) :
    (combine operator left right).isResolved :=
  combine_holds (motive := (isResolved ·)) (fun _ => rfl) (fun _ => rfl) operator left right

end Value

namespace Expression

variable {evaluator : Evaluator} {binding : Binding}

mutual
/-- What an inert expression gives is traced, if all that the stubs have is. -/
theorem evaluateWith_traces (known : IsOrigin origin)
    (stubs : ∀ path found, binding.findInStubs? path = some found → found.Traced origin) :
    ∀ (expression : Expression) {node : Node} {report : Report}, expression.isInert →
      evaluateWith evaluator binding expression = .ok (.value node report) →
        report.Traces origin node
  | .nil, _, _, _, ends | .boolean _, _, _, _, ends | .integer _, _, _, _, ends => by
      cases ends
      exact Report.traces_of_isResolved _ rfl
  | .text value, _, _, inert, ends => by
      cases ends
      exact Report.traces_of_isResolved _ inert
  | .list entries, _, _, inert, ends => by
      cases evaluates_of_value ends with
      | list values =>
          exact ⟨hereditary_traced.list.mpr (operands_traced known stubs entries inert values),
            fun pending => by cases pending⟩
  | .reference path, _, _, _, ends => by
      cases evaluates_of_value ends with
      | reference looked resolved =>
          refine Report.traces_of_isResolved _ ?_
          rw [← resolved]
          exact Node.isResolved_congr rfl
  | .merge path redirected replacing, _, _, _, ends => by
      cases evaluates_of_value ends with
      | merge held => exact ⟨(stubs _ _ held).congr rfl fun _ => rfl, fun _ => rfl⟩
  | .auto path, _, _, _, ends => by
      rcases Binding.autoOutcome_integer (Except.ok.inj ends) with ⟨word, same⟩
      have plain : (Node.mk (.integer word) {}).isResolved := rfl
      refine Report.traces_of_isResolved _ ?_
      rw [← plain]
      exact Node.isResolved_congr same
  | .group inner, _, _, inert, ends => evaluateWith_traces known stubs inner inert ends
  | .binary operator left right, _, _, inert, ends => by
      rw [isInert, Bool.and_eq_true, Bool.and_eq_true, Bool.and_eq_true] at inert
      rcases inert with ⟨⟨⟨noSum, noText⟩, first⟩, second⟩
      cases evaluates_of_value ends with
      | first given => exact evaluateWith_traces known stubs left first given
      | second _ given => exact evaluateWith_traces known stubs right second given
      | decided => exact Report.traces_of_isResolved _ rfl
      | combined => exact Report.traces_of_isResolved _ (Value.combine_resolved _ _ _)
      | computed _ _ _ result =>
          exact Report.traces_of_isResolved _
            (Value.operate_resolved (bne_iff_ne.mp noSum) (bne_iff_ne.mp noText) result)
  | .not operand, _, _, _, ends => by
      cases evaluates_of_value ends
      exact Report.traces_of_isResolved _ rfl
  | .conditional condition consequence alternative, _, _, inert, ends => by
      rw [isInert, Bool.and_eq_true, Bool.and_eq_true] at inert
      cases evaluates_of_value ends with
      | consequence _ _ given =>
          exact (evaluateWith_traces known stubs consequence inert.1.2 given).join known rfl
      | alternative _ _ given =>
          exact (evaluateWith_traces known stubs alternative inert.2 given).join known rfl
  | .prefer inner, _, _, inert, ends => by
      cases evaluates_of_value ends with
      | prefer given =>
          have traces := evaluateWith_traces known stubs inner inert given
          exact ⟨traces.traced, traces.source⟩
  | .call _ _, _, _, inert, _ | .lambda _ _, _, _, inert, _ | .mapping _ _, _, _, inert, _ => by
      cases inert

theorem operands_traced (known : IsOrigin origin)
    (stubs : ∀ path found, binding.findInStubs? path = some found → found.Traced origin) :
    ∀ (entries : List Expression) {nodes : List Node} {before report : Report},
      allInert entries → operands evaluator binding before entries = .ok (.ok (nodes, report)) →
        ∀ node ∈ nodes, node.Traced origin
  | [], _, _, _, _, ends => by
      cases ends
      exact List.forall_mem_nil _
  | entry :: entries, _, _, _, inert, ends => by
      rw [allInert, Bool.and_eq_true] at inert
      rcases operands_cons ends with ⟨node, next, others, first, rest, rfl⟩
      exact List.forall_mem_cons.mpr ⟨(evaluateWith_traces known stubs entry inert.1 first).traced,
        operands_traced known stubs entries inert.2 rest⟩
end

theorem evaluate_traces (known : IsOrigin origin)
    (stubs : ∀ path found, binding.findInStubs? path = some found → found.Traced origin)
    {expression : Expression} (inert : expression.isInert) {depth : Nat} {node : Node}
    {report : Report} (ends : evaluate depth binding expression = .ok (.value node report)) :
    report.Traces origin node := by
  cases depth with
  | zero => cases ends
  | succ depth => exact evaluateWith_traces known stubs expression inert ends

end Expression

/-! ## Passes -/

variable {stubs : List Node}

/-- A text with an embedded expression keeps its origin when the expression is read. -/
theorem Node.Traced.read (known : IsOrigin origin) {node : Node} {path : List String}
    {expression : Expression} (traced : node.Traced origin)
    (reads : node.expression? path = some (.ok expression)) :
    origin node.source (.expression expression) ∧ expression.isInert := by
  refine known.read (traced.here ?_) reads
  have unresolved := Node.not_resolved_of_expression reads
  rw [Node.isLocallyResolved, Value.isLocallyResolved_eq] at unresolved
  simpa using unresolved

theorem Node.traced_expression {expression : Expression} {annotations : Annotations}
    (here : origin annotations.source (.expression expression)) :
    (Node.mk (.expression expression) annotations).Traced origin :=
  .intro (fun _ => here) fun _ member => by cases member

theorem Pass.leaf_traced (known : IsOrigin origin) {depth : Nat} {binding : Binding}
    {mode : Override} {node node' : Node}
    (stubs : ∀ path found, binding.findInStubs? path = some found → found.Traced origin)
    (traced : node.Traced origin)
    (ends : leaf (Expression.evaluate depth) binding mode node = .ok node') :
    node'.Traced origin := by
  -- What a stub puts in the place of the leaf is traced as well.
  have here : ((stubFor? node binding mode).getD node).Traced origin := by
    cases held : stubFor? node binding mode with
    | none => exact traced
    | some current =>
        simp only [stubFor?] at held
        split at held
        · rcases Option.map_eq_some_iff.mp held with ⟨found, below, rfl⟩
          exact (stubs _ found below).congr rfl fun _ => rfl
        · cases held
  unfold leaf evaluateNode at ends
  generalize (stubFor? node binding mode).getD node = current at here ends
  cases reads : current.expression? binding.path with
  | none =>
      rw [reads] at ends
      cases ends
      exact here
  | some found =>
      rw [reads] at ends
      cases found with
      | error issue =>
          cases ends
          exact here.congr rfl fun _ => rfl
      | ok expression =>
          rcases here.read known reads with ⟨source, inert⟩
          rcases ok_of_bind ends with ⟨outcome, evaluated, ends⟩
          cases ends
          cases outcome with
          | value result report =>
              have traces := Expression.evaluate_traces known stubs inert evaluated
              refine traces.traced.congr rfl fun pending => ?_
              have same : (report.source <|> result.source) = result.source := by
                rw [traces.source pending]
                cases result.source <;> rfl
              exact same
          | deferred report | failed report => exact Node.traced_expression source

theorem keeps_traced (known : IsOrigin origin) (each : ∀ stub ∈ stubs, stub.Traced origin)
    (depth : Nat) : (Expression.evaluate depth).Keeps stubs (Node.Traced origin) where
  hereditary := hereditary_traced
  stays stays traced := by
    cases stays with
    | noted issue _ => exact traced.congr rfl fun _ => rfl
    | evaluated issue reads => exact Node.traced_expression (traced.read known reads).1
  brings traced reads ends same := by
    have inert := (traced.read known reads).2
    refine (Expression.evaluate_traces known (fun path found held => ?_) inert ends).traced
    exact hereditary_traced.findInStubs? (same ▸ each) held
  leaf traced ends same :=
    Pass.leaf_traced known (fun _ _ held => hereditary_traced.findInStubs? (same ▸ each) held)
      traced ends

/-! ## Documents -/

/-- A document with a name, as it is read. -/
def Node.ofDocument (document : String × Tree) : Node := .ofTree (some document.1) document.2

/-- The texts of a document that embed an expression. -/
def Node.embeddedTexts (document : Node) : List String :=
  document.places.filterMap fun found =>
    match found.2.value with
    | .text text => if (Text.embedded? text).isSome then some text else none
    | _ => none

/-- An expression that the text embeds and that can be read is inert. -/
def Text.isInert (text : String) : Bool :=
  ((embedded? text).bind fun source => (Expression.parse source []).toOption).all
    Expression.isInert

def Node.isInert (document : Node) : Bool := document.embeddedTexts.all Text.isInert

/-- A text of a document that embeds an expression, or an expression that is read from one at some
path. -/
inductive Value.IsFrom (document : Node) : Value → Prop where
  | text {text : String} (listed : text ∈ document.embeddedTexts) : IsFrom document (.text text)
  | expression {text source : String} {path : List String} {expression : Expression}
      (listed : text ∈ document.embeddedTexts) (embedded : Text.embedded? text = some source)
      (parses : Expression.parse source path = .ok expression) :
      IsFrom document (.expression expression)

/-- The source names a document that has the value. -/
def IsNamed (documents : List (String × Tree)) (source : Option String) (value : Value) : Prop :=
  ∃ document ∈ documents, source = some document.1 ∧ value.IsFrom (.ofDocument document)

theorem Expression.isInert_of_text {text source : String} {path : List String}
    {expression : Expression} (inert : Text.isInert text)
    (embedded : Text.embedded? text = some source) (parses : parse source path = .ok expression) :
    expression.isInert := by
  rw [Text.isInert, embedded, Option.bind_some, parse_moved parses []] at inert
  rw [← expression.isInert_moved []]
  exact inert

theorem isOrigin_isNamed {documents : List (String × Tree)}
    (inert : ∀ document ∈ documents, (Node.ofDocument document).isInert) :
    IsOrigin (IsNamed documents) where
  named := by
    rintro source value ⟨document, _, same, _⟩
    rw [same]
    rfl
  read := by
    rintro ⟨value, annotations⟩ path expression ⟨document, member, same, stems⟩ reads
    have inert := List.all_eq_true.mp (inert document member)
    cases stems with
    | @text text listed =>
        rcases Option.map_eq_some_iff.mp reads with ⟨source, embedded, read⟩
        cases parses : Expression.parse source path with
        | error error =>
            rw [parses] at read
            cases read
        | ok read' =>
            rw [parses] at read
            cases read
            exact ⟨⟨document, member, same, .expression listed embedded parses⟩,
              Expression.isInert_of_text (inert text listed) embedded parses⟩
    | expression listed embedded parses =>
        cases reads
        exact ⟨⟨document, member, same, .expression listed embedded parses⟩,
          Expression.isInert_of_text (inert _ listed) embedded parses⟩

mutual
/-- Where a document that is read has an expression, it has a text with its name. -/
theorem Node.traced_ofTree (name : String) : ∀ tree : Tree,
    (Node.ofTree (some name) tree).Traced fun source value =>
      source = some name ∧ ∃ text, value = .text text
  | .null | .boolean _ | .decimal _ => Node.traced_of_isResolved rfl
  | .integer value => by
      rw [Node.ofTree, Tree.integerValue]
      split <;> exact Node.traced_of_isResolved rfl
  | .text value => .intro (fun _ => ⟨rfl, value, rfl⟩) fun _ member => by cases member
  | .sequence entries => hereditary_traced.list.mpr (Node.traced_ofEntries name entries)
  | .mapping fields => hereditary_traced.map.mpr fun field member =>
      Node.traced_ofFields name fields field (Table.mem_ofList member)
  | .tagged _ tree => Node.traced_ofTree name tree

theorem Node.traced_ofEntries (name : String) : ∀ trees : List Tree,
    ∀ entry ∈ entriesOfTrees (some name) trees, entry.Traced fun source value =>
      source = some name ∧ ∃ text, value = .text text
  | [] => List.forall_mem_nil _
  | tree :: trees => List.forall_mem_cons.mpr
      ⟨Node.traced_ofTree name tree, Node.traced_ofEntries name trees⟩

theorem Node.traced_ofFields (name : String) : ∀ trees : List (Tree × Tree),
    ∀ field ∈ fieldsOfTrees (some name) trees, field.2.Traced fun source value =>
      source = some name ∧ ∃ text, value = .text text
  | [] => List.forall_mem_nil _
  | (_, tree) :: trees => List.forall_mem_cons.mpr
      ⟨Node.traced_ofTree name tree, Node.traced_ofFields name trees⟩
end

theorem Node.traced_ofDocument {documents : List (String × Tree)} {document : String × Tree}
    (member : document ∈ documents) : (Node.ofDocument document).Traced (IsNamed documents) := by
  refine @Node.traced_of_places _ _ .root fun found listed pending => ?_
  rcases (Node.traced_ofTree document.1 document.2).places .root found listed pending with
    ⟨source, text, value⟩
  refine ⟨document, member, source, ?_⟩
  rw [value]
  refine .text (List.mem_filterMap.mpr ⟨found, listed, ?_⟩)
  rw [value] at pending ⊢
  exact if_pos pending

/-! ## Runs -/

namespace Resolution

variable {answers : Answers} {template : String × Tree} {given : List (String × Tree)}

/-- What waits in a document of a run points to where it comes from. Let all expressions that the
template and the stubs embed be inert. Then whatever in a document of the run is an expression, or a
text that embeds one, carries the name of a document that was given and has a text which is that
text, or from which that expression is read at some path. So does all that is listed as
unresolved. -/
theorem unresolved_named
    (inert : ∀ document ∈ template :: given, (Node.ofDocument document).isInert) :
    (∀ passes document,
      treeAfter answers (given.map .ofDocument) passes (.ofDocument template) = .ok document →
      (∀ found ∈ document.places, found.2.value.isPending →
        IsNamed (template :: given) found.2.source found.2.value) ∧
      ∀ pending ∈ document.unresolved, ∃ value, IsNamed (template :: given) pending.source value ∧
        pending.expression = UnresolvedNode.expressionText value) ∧
    ∀ limit resolution,
      partly answers limit (given.map .ofDocument) (.ofDocument template) = .ok (.ok resolution) →
      ∀ pending ∈ resolution.unresolved, ∃ value,
        IsNamed (template :: given) pending.source value ∧
          pending.expression = UnresolvedNode.expressionText value := by
  have known := isOrigin_isNamed inert
  have stubs : ∀ stub ∈ given.map Node.ofDocument, stub.Traced (IsNamed (template :: given)) := by
    rw [List.forall_mem_map]
    exact fun document member => Node.traced_ofDocument (List.mem_cons_of_mem _ member)
  have all : ∀ passes document,
      treeAfter answers (given.map .ofDocument) passes (.ofDocument template) = .ok document →
      ∀ found ∈ document.places, found.2.value.isPending →
        IsNamed (template :: given) found.2.source found.2.value := fun passes document reached =>
    (treeAfter_keeps (keeps_traced known stubs _) (Node.traced_ofDocument List.mem_cons_self)
      reached).places .root
  have reported : ∀ passes document,
      treeAfter answers (given.map .ofDocument) passes (.ofDocument template) = .ok document →
      ∀ pending ∈ document.unresolved, ∃ value, IsNamed (template :: given) pending.source value ∧
        pending.expression = UnresolvedNode.expressionText value := by
    intro passes document reached pending listed
    rw [Node.unresolved_eq, List.mem_map] at listed
    rcases listed with ⟨⟨place, node⟩, shown, rfl⟩
    rcases List.mem_filter.mp shown with ⟨shown, waits⟩
    exact ⟨node.value, all passes document reached (place, node) shown waits, rfl⟩
  refine ⟨fun passes document reached =>
    ⟨all passes document reached, reported passes document reached⟩, ?_⟩
  intro limit resolution result pending listed
  rcases settled_of_partly result with ⟨last, settled⟩
  rw [settled.unresolved] at listed
  exact reported resolution.passes resolution.document settled.final pending listed

/-- What a merge takes from a stub keeps the name of the stub, beside what the template has. -/
theorem unresolved_named_merged :
    let template : String × Tree :=
      ("template", .mapping [(.text "a", .text "(( merge ))"), (.text "b", .text "(( c ))")])
    let given : List (String × Tree) := [("stub", .mapping [(.text "a", .text "(( 2 * x ))")])]
    ∃ resolution,
      partly .none 3 (given.map .ofDocument) (.ofDocument template) = .ok (.ok resolution) ∧
      (resolution.unresolved.map fun pending => (pending.source, pending.expression)) =
        [(some "stub", "(( 2 * x ))"), (some "template", "(( c ))")] ∧
      ∀ pending ∈ resolution.unresolved, ∃ value,
        IsNamed (template :: given) pending.source value ∧
          pending.expression = UnresolvedNode.expressionText value := by
  intro template given
  have shown : (found? (partly .none 3 (given.map .ofDocument) (.ofDocument template))).map
      (fun resolution => resolution.unresolved.map
        fun pending => (pending.source, pending.expression)) =
        some [(some "stub", "(( 2 * x ))"), (some "template", "(( c ))")] := by decide +kernel
  rcases Option.map_eq_some_iff.mp shown with ⟨resolution, result, listed⟩
  rw [found?_eq_some_iff] at result
  have inert : ∀ document ∈ template :: given, (Node.ofDocument document).isInert := by
    decide +kernel
  exact ⟨resolution, result, listed, (unresolved_named inert).2 3 resolution result⟩

end Resolution

end Stencil
