import Stencil.Address.Text
import Stencil.Evaluation.TextFunction

namespace Stencil

/-! Texts in which a character does not stand. What is cut out of such texts or put together
from them does not have it either, and numbers and addresses have digits and a few marks only. -/

namespace Text

/-- The character is not in the text. -/
def lacks (character : Char) (text : String) : Bool := !text.toList.contains character

variable {character : Char}

theorem lacks_iff {text : String} : lacks character text ↔ character ∉ text.toList := by
  simp [lacks]

theorem lacks_append (first second : String) :
    lacks character (first ++ second) = (lacks character first && lacks character second) := by
  rw [Bool.eq_iff_iff, Bool.and_eq_true, lacks_iff, lacks_iff, lacks_iff, String.toList_append,
    List.mem_append, not_or]

theorem lacks_ofList {characters : List Char} :
    lacks character (.ofList characters) ↔ character ∉ characters := by
  rw [lacks_iff, String.toList_ofList]

/-- What has no other characters than a text. -/
theorem lacks_of_subset {text : String} {characters : List Char} (lacks : lacks character text)
    (subset : characters ⊆ text.toList) : Text.lacks character (.ofList characters) := by
  rw [lacks_iff] at lacks
  rw [lacks_ofList]
  exact fun member => lacks (subset member)

theorem lacks_intercalate {separator : String} (lacks : lacks character separator)
    (texts : List String) :
    Text.lacks character (separator.intercalate texts) ↔
      ∀ text ∈ texts, Text.lacks character text := by
  induction texts with
  | nil => simp [Text.lacks]
  | cons text texts induction =>
      cases texts with
      | nil => simp
      | cons other texts =>
          rw [String.intercalate_cons_cons, lacks_append, lacks_append, Bool.and_eq_true,
            Bool.and_eq_true, induction, @List.forall_mem_cons _ _ text (other :: texts)]
          exact and_congr_left fun _ => and_iff_left lacks

/-! ## Cutting -/

theorem dropWhile_subset (condition : Char → Bool) (characters : List Char) :
    characters.dropWhile condition ⊆ characters :=
  (List.dropWhile_suffix condition).subset

theorem trimStart_subset (characters : List Char) : trimStart characters ⊆ characters :=
  dropWhile_subset isBlank characters

theorem trimEnd_subset (characters : List Char) : trimEnd characters ⊆ characters := by
  intro character member
  exact List.mem_reverse.mp (dropWhile_subset _ _ (List.mem_reverse.mp member))

theorem lacks_embedded {text source : String} (lacks : lacks character text)
    (embedded : embedded? text = some source) : Text.lacks character source := by
  unfold embedded? at embedded
  split at embedded
  · rename_i rest opened
    rcases Option.map_eq_some_iff.mp embedded with ⟨inside, closed, rfl⟩
    refine lacks_of_subset lacks fun character member => ?_
    have inside := trimStart_subset _ (trimEnd_subset _ member)
    unfold closing? at closed
    split at closed
    · rename_i others reversed
      cases closed
      rw [opened]
      refine List.mem_cons_of_mem _ (List.mem_cons_of_mem _ (List.mem_reverse.mp ?_))
      rw [reversed]
      exact List.mem_cons_of_mem _ (List.mem_cons_of_mem _ (List.mem_reverse.mp inside))
    · cases closed
  · cases embedded

theorem cut?_subset {separator characters before behind : List Char}
    (cut : cut? separator characters = some (before, behind)) :
    before ⊆ characters ∧ behind ⊆ characters := by
  induction characters generalizing before with
  | nil =>
      unfold cut? at cut
      split at cut
      · cases cut
        exact ⟨List.nil_subset _, List.nil_subset _⟩
      · cases cut
  | cons character characters induction =>
      unfold cut? at cut
      split at cut
      · cases cut
        exact ⟨List.nil_subset _, List.drop_subset _ _⟩
      · rcases Option.map_eq_some_iff.mp cut with ⟨⟨before', behind'⟩, cut, same⟩
        cases same
        have parts := induction cut
        exact ⟨List.cons_subset_cons _ parts.1, List.Subset.trans parts.2 (List.subset_cons_self _ _)⟩

theorem splitAt_subset (first : Char) (others characters : List Char) :
    ∀ part ∈ splitAt first others characters, part ⊆ characters := by
  fun_induction splitAt first others characters with
  | case1 characters =>
      rw [List.forall_mem_singleton]
      exact List.Subset.refl _
  | case2 characters before behind cut induction =>
      have parts := cut?_subset cut
      rw [List.forall_mem_cons]
      exact ⟨parts.1, fun part member => List.Subset.trans (induction part member) parts.2⟩

theorem lacks_split {separator text : String} (lacks : lacks character text) :
    ∀ part ∈ split separator text, Text.lacks character part := by
  unfold split
  rw [List.forall_mem_map]
  intro part member
  refine lacks_of_subset lacks ?_
  unfold splitCharacters at member
  split at member
  · rcases List.mem_cons.mp member with rfl | member
    · exact List.nil_subset _
    · rcases List.mem_append.mp member with member | member
      · rcases List.mem_map.mp member with ⟨single, here, rfl⟩
        exact List.cons_subset.mpr ⟨here, List.nil_subset _⟩
      · cases List.mem_singleton.mp member
        exact List.nil_subset _
  · exact splitAt_subset _ _ _ _ member

end Text

theorem TextFunction.lacks_trimmer {character : Char} {text : String} (cutset : Option String)
    (lacks : Text.lacks character text) : Text.lacks character (trimmer cutset text) := by
  have within (condition : Char → Bool) : Text.lacks character (trimWhere condition text) := by
    refine Text.lacks_of_subset lacks fun character member => ?_
    have member := Text.dropWhile_subset _ _ (List.mem_reverse.mp member)
    exact Text.dropWhile_subset _ _ (List.mem_reverse.mp member)
  cases cutset with
  | none => exact within _
  | some cutset => exact within _

/-! ## Numbers -/

/-- The character is no digit to any base. -/
def NoDigit (character : Char) : Prop := ∀ digit, Nat.digitChar digit ≠ character

namespace NoDigit

variable {character : Char}

theorem of_not_mem (small : ∀ digit < 16, Nat.digitChar digit ≠ character)
    (star : character ≠ '*') : NoDigit character := by
  intro digit
  by_cases less : digit < 16
  · exact small digit less
  · have large : Nat.digitChar digit = '*' := by
      rcases Nat.exists_eq_add_of_le (Nat.le_of_not_lt less) with ⟨more, rfl⟩
      rw [Nat.add_comm]
      rfl
    rw [large]
    exact star.symm

theorem toDigitsCore (other : NoDigit character) (base fuel number : Nat) (digits : List Char)
    (none : character ∉ digits) : character ∉ Nat.toDigitsCore base fuel number digits := by
  induction fuel generalizing number digits with
  | zero => exact none
  | succ fuel induction =>
      have longer : character ∉ Nat.digitChar (number % base) :: digits := by
        rw [List.mem_cons]
        exact not_or.mpr ⟨(other _).symm, none⟩
      unfold Nat.toDigitsCore
      simp only
      split
      · exact longer
      · exact induction _ _ longer

theorem toDigits (other : NoDigit character) (base number : Nat) :
    character ∉ Nat.toDigits base number :=
  other.toDigitsCore _ _ _ _ List.not_mem_nil

theorem toString (other : NoDigit character) (number : Nat) :
    Text.lacks character (ToString.toString number) := by
  rw [Nat.toString_eq_ofList_toDigits, Text.lacks_ofList]
  exact other.toDigits 10 number

theorem toString_int (other : NoDigit character) (dash : character ≠ '-') (number : Int) :
    Text.lacks character (ToString.toString number) := by
  rw [Int.toString_eq_repr, Int.repr_eq_if]
  split
  · exact other.toString _
  · rw [Text.lacks_append, Bool.and_eq_true]
    refine ⟨?_, other.toString _⟩
    rw [Text.lacks_iff]
    exact fun member => dash (List.mem_singleton.mp member)

/-! ## Addresses -/

theorem groupsText (other : NoDigit character) (colon : character ≠ ':') (groups : List Nat) :
    Text.lacks character (Address.groupsText groups) := by
  refine (Text.lacks_intercalate ?_ _).mpr fun text member => ?_
  · rw [Text.lacks_iff]
    exact fun member => colon (List.mem_singleton.mp member)
  · rcases List.mem_map.mp member with ⟨group, _, rfl⟩
    exact Text.lacks_ofList.mpr (other.toDigits 16 group)

theorem fourText (other : NoDigit character) (dot : character ≠ '.') (value : Nat) :
    Text.lacks character (Address.fourText value) := by
  refine (Text.lacks_intercalate ?_ _).mpr fun text member => ?_
  · rw [Text.lacks_iff]
    exact fun member => dot (List.mem_singleton.mp member)
  · rcases List.mem_map.mp member with ⟨number, _, rfl⟩
    exact other.toString number

/-- An address is written in digits, dots and colons. -/
theorem print (other : NoDigit character) (dot : character ≠ '.') (colon : character ≠ ':')
    (address : Address) : Text.lacks character address.print := by
  have colons : Text.lacks character "::" := by
    rw [Text.lacks_iff]
    exact fun member => by simp [colon] at member
  have mapped : Text.lacks character "::ffff:" := by
    have letter : character ≠ 'f' := (other 15).symm
    rw [Text.lacks_iff]
    exact fun member => by simp [colon, letter] at member
  unfold Address.print
  cases address.family with
  | four => exact other.fourText dot _
  | six =>
      simp only [Address.sixText]
      split
      · rw [Text.lacks_append, Bool.and_eq_true]
        exact ⟨mapped, other.fourText dot _⟩
      · split
        · rw [Text.lacks_append, Text.lacks_append, Bool.and_eq_true, Bool.and_eq_true]
          exact ⟨⟨other.groupsText colon _, colons⟩, other.groupsText colon _⟩
        · exact other.groupsText colon _

end NoDigit

end Stencil
