import Stencil.Proofs.Evaluation.Inheritance
import Stencil.Proofs.Node.Percent

namespace Stencil

/-! What operators and functions make of nodes without a percent sign has none either. A
template without one is copied, and its arguments are not looked at. -/

variable {binding : Binding} {arguments : List Node} {value : Value}

theorem Address.print_lacksPercent (address : Address) : Text.lacks '%' address.print :=
  noDigit_percent.print (by decide) (by decide) address

namespace Value

theorem operate_withoutPercent {operator : Operator} {left right result : Value}
    (first : left.withoutPercent) (second : right.withoutPercent)
    (computed : operate operator left right = .ok result) : result.withoutPercent := by
  refine operate_holds (motive := (withoutPercent ·)) (fun _ => rfl) (fun _ => rfl)
    Address.print_lacksPercent (fun _ first' second' => ?_) computed
  rw [first'] at first
  rw [second'] at second
  exact (Text.lacks_append _ _).trans (by rw [Bool.and_eq_true]; exact ⟨first, second⟩)

theorem combine_withoutPercent (operator : Operator) (left right : Value) :
    (combine operator left right).withoutPercent :=
  combine_holds (motive := (withoutPercent ·)) (fun _ => rfl) (fun _ => rfl) operator left right

end Value

/-! ## Arguments -/

namespace Arguments

theorem flatten_withoutPercent (free : ∀ argument ∈ arguments, argument.withoutPercent) :
    ∀ argument ∈ flatten arguments, argument.withoutPercent := by
  intro entry member
  rcases List.mem_flatMap.mp member with ⟨argument, given, member⟩
  have whole := free argument given
  rw [Node.withoutPercent_eq] at whole
  split at member
  · rename_i entries held
    rw [held] at whole
    exact entriesWithoutPercent_iff.mp whole entry member
  · cases List.mem_singleton.mp member
    exact free _ given

theorem text_lacksPercent {function : Builtin} {position : Nat} {argument : Node} {text : String}
    (free : argument.withoutPercent) (read : Arguments.text function position argument = .ok text) :
    Text.lacks '%' text := by
  rw [Node.withoutPercent_eq] at free
  unfold Arguments.text at read
  split at read
  · rename_i held
    rw [held] at free
    cases read
    exact free
  · cases read

end Arguments

/-! ## Texts -/

namespace Template

theorem pieces_of_lacksPercent {characters : List Char} (free : '%' ∉ characters) :
    pieces characters = characters.map Piece.literal := by
  induction characters with
  | nil => rw [pieces, List.map_nil]
  | cons character rest induction =>
      rw [List.mem_cons, not_or] at free
      rw [pieces, if_neg (Ne.symm free.1), induction free.2, List.map_cons]

theorem fill_literals (characters : List Char) (arguments : List Node) :
    fill (characters.map Piece.literal) arguments =
      .ok (if arguments = [] then .ok (.ofList characters)
        else .error (.unusedArguments arguments.length)) := by
  induction characters with
  | nil => cases arguments <;> rfl
  | cons character rest induction =>
      rw [List.map_cons, fill, induction]
      split
      · rw [String.ofList_cons]
        rfl
      · rfl

/-- A template without directives is its own text, and has no use for arguments. -/
theorem render_of_lacksPercent {template : String} (free : Text.lacks '%' template)
    (arguments : List Node) :
    render template arguments =
      .ok (if arguments = [] then .ok template
        else .error (.unusedArguments arguments.length)) := by
  unfold render
  rw [pieces_of_lacksPercent (Text.lacks_iff.mp free), fill_literals, String.ofList_toList]

end Template

namespace TextFunction

theorem split_withoutPercent {source : Option String}
    (free : ∀ argument ∈ arguments, argument.withoutPercent)
    (computed : split source arguments = .ok value) : value.withoutPercent := by
  unfold split at computed
  split at computed
  · rcases ok_of_bind computed with ⟨separator, _, computed⟩
    rcases ok_of_bind computed with ⟨text, read, computed⟩
    cases computed
    refine entriesWithoutPercent_iff.mpr fun entry member => ?_
    rcases List.mem_map.mp member with ⟨part, cut, rfl⟩
    exact Text.lacks_split (Arguments.text_lacksPercent (free _ (by simp)) read) part cut
  · cases computed

theorem join_withoutPercent (free : ∀ argument ∈ arguments, argument.withoutPercent)
    (computed : join arguments = .ok value) : value.withoutPercent := by
  unfold join at computed
  split at computed
  · rw [List.forall_mem_cons] at free
    rcases ok_of_bind computed with ⟨separator, read, computed⟩
    rcases ok_of_bind computed with ⟨texts, made, computed⟩
    cases computed
    refine (Text.lacks_intercalate (Arguments.text_lacksPercent free.1 read) texts).mpr ?_
    refine forall_of_mapM made fun entry member text written => ?_
    have here := Arguments.flatten_withoutPercent free.2 entry member
    rw [Node.withoutPercent_eq] at here
    unfold scalarText at written
    split at written
    · rename_i held
      cases written
      exact Value.text?_lacksPercent here held
    · cases written
  · cases computed

theorem trimValue_withoutPercent {cutset : Option String} {argument : Value}
    (free : argument.withoutPercent) (computed : trimValue cutset argument = .ok value) :
    value.withoutPercent := by
  unfold trimValue at computed
  split at computed
  · cases computed
    exact lacks_trimmer cutset free
  · rcases ok_of_map computed with ⟨entries, made, rfl⟩
    refine entriesWithoutPercent_iff.mpr (forall_of_mapM made fun entry member result cut => ?_)
    have here := entriesWithoutPercent_iff.mp free entry member
    rw [Node.withoutPercent_eq] at here
    unfold trimEntry at cut
    split at cut
    · rename_i held
      rw [held] at here
      cases cut
      exact lacks_trimmer cutset here
    · cases cut
  · cases computed

theorem trim_withoutPercent (free : ∀ argument ∈ arguments, argument.withoutPercent)
    (computed : trim arguments = .ok value) : value.withoutPercent := by
  unfold trim at computed
  split at computed
  · exact trimValue_withoutPercent (Node.withoutPercent_eq _ ▸ free _ (by simp)) computed
  · rcases ok_of_bind computed with ⟨cutset, _, computed⟩
    exact trimValue_withoutPercent (Node.withoutPercent_eq _ ▸ free _ (by simp)) computed
  · cases computed

theorem format_withoutPercent (free : ∀ argument ∈ arguments, argument.withoutPercent)
    (computed : format arguments = .ok (.ok value)) : value.withoutPercent := by
  unfold format at computed
  split at computed
  · rw [List.forall_mem_cons] at free
    split at computed
    · cases computed
    · rename_i template read
      have lacks := Arguments.text_lacksPercent free.1 read
      rw [Template.render_of_lacksPercent lacks] at computed
      split at computed
      · cases computed
        exact lacks
      · cases computed
  · cases computed

/-- A template without directives never stops the program. -/
theorem format_ends (free : ∀ argument ∈ arguments, argument.withoutPercent) :
    ∃ result, format arguments = .ok result := by
  unfold format
  split
  · rw [List.forall_mem_cons] at free
    split
    · exact ⟨_, rfl⟩
    · rename_i template read
      rw [Template.render_of_lacksPercent (Arguments.text_lacksPercent free.1 read)]
      split <;> exact ⟨_, rfl⟩
  · exact ⟨_, rfl⟩

theorem error_ends (free : ∀ argument ∈ arguments, argument.withoutPercent) :
    ∃ issue, error arguments = .ok issue := by
  unfold error
  split
  · rw [List.forall_mem_cons] at free
    split
    · exact ⟨_, rfl⟩
    · rename_i template read
      rw [Template.render_of_lacksPercent (Arguments.text_lacksPercent free.1 read)]
      split <;> exact ⟨_, rfl⟩
  · exact ⟨_, rfl⟩

end TextFunction

/-! ## Variables -/

theorem HostFunction.settings_withoutPercent {known : List (String × String)}
    {source : Option String}
    (free : ∀ setting ∈ known, Text.lacks '%' setting.1 ∧ Text.lacks '%' setting.2)
    (computed : settings known source arguments = .ok value) : value.withoutPercent := by
  have found {name text : String} (held : known.lookup name = some text) :=
    free (name, text) (member_of_lookup held)
  rcases settings_cases computed with ⟨name, text, held, rfl⟩ | ⟨fields, rfl, texts⟩
  · exact (found held).2
  · refine ofList_withoutPercent (fieldsWithoutPercent_iff.mpr fun field member => ?_)
    rcases texts field member with ⟨text, held, made⟩
    rw [made]
    exact found held

/-! ## Addresses -/

namespace AddressFunction

theorem least_withoutPercent (computed : least arguments = .ok value) : value.withoutPercent := by
  rcases ok_of_map computed with ⟨range, _, rfl⟩
  exact Address.print_lacksPercent _

theorem greatest_withoutPercent (computed : greatest arguments = .ok value) :
    value.withoutPercent := by
  rcases ok_of_map computed with ⟨range, _, rfl⟩
  exact Address.print_lacksPercent _

theorem staticAddresses_withoutPercent
    (computed : staticAddresses binding arguments = .ok value) : value.withoutPercent := by
  rcases staticAddresses_texts computed with ⟨nodes, rfl, texts⟩
  refine entriesWithoutPercent_iff.mpr fun node member => ?_
  rcases texts node member with ⟨address, held⟩
  rw [Node.withoutPercent_eq, held]
  exact Address.print_lacksPercent address

end AddressFunction

end Stencil
