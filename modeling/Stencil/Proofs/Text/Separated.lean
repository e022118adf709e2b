import Stencil.Text.Separated

namespace Stencil.Text

/-! Splitting leaves out nothing but separators, so the parts with the separator between them are
the text again. Parts in which a character does not stand are found again between such
characters. -/

/-! ## The first separator -/

/-- The separator stands between what is before it and what is behind it. -/
theorem eq_of_cut? {separator characters before behind : List Char}
    (found : cut? separator characters = some (before, behind)) :
    characters = before ++ separator ++ behind := by
  induction characters generalizing before with
  | nil =>
      unfold cut? at found
      split at found
      · rename_i empty
        cases found
        rw [List.isEmpty_iff.mp empty]
        rfl
      · cases found
  | cons character rest induction =>
      unfold cut? at found
      split at found
      · rename_i here
        cases found
        rcases List.isPrefixOf_iff_prefix.mp here with ⟨behind, same⟩
        rw [← same, List.drop_left]
        rfl
      · rcases Option.map_eq_some_iff.mp found with ⟨⟨front, last⟩, cut, same⟩
        cases same
        rw [induction cut]
        rfl

theorem cut?_of_not_mem {mark : Char} {characters : List Char} (free : mark ∉ characters) :
    cut? [mark] characters = none := by
  induction characters with
  | nil => rfl
  | cons character rest induction =>
      rw [List.mem_cons, not_or] at free
      rw [cut?, if_neg (by simp [free.1]), induction free.2]
      rfl

theorem cut?_marked {mark : Char} {before : List Char} (free : mark ∉ before)
    (behind : List Char) : cut? [mark] (before ++ mark :: behind) = some (before, behind) := by
  induction before with
  | nil =>
      rw [List.nil_append, cut?, if_pos (by simp)]
      rfl
  | cons character before induction =>
      rw [List.mem_cons, not_or] at free
      rw [List.cons_append, cut?, if_neg (by simp [free.1]), induction free.2]
      rfl

/-! ## All separators -/

theorem splitAt_ne_nil (first : Char) (others characters : List Char) :
    splitAt first others characters ≠ [] := by
  rw [splitAt]
  split <;> exact List.cons_ne_nil _ _

theorem intercalate_splitAt (first : Char) (others characters : List Char) :
    (first :: others).intercalate (splitAt first others characters) = characters := by
  fun_induction splitAt first others characters with
  | case1 characters => exact List.intercalate_singleton
  | case2 characters before behind cut induction =>
      rw [List.intercalate_cons_of_ne_nil (splitAt_ne_nil first others behind), induction]
      exact (eq_of_cut? cut).symm

theorem intercalate_splitCharacters (separator characters : List Char) :
    separator.intercalate (splitCharacters separator characters) = characters := by
  cases separator with
  | nil =>
      rw [splitCharacters, List.intercalate_cons_of_ne_nil (by simp), List.nil_append,
        List.nil_append]
      induction characters with
      | nil => rfl
      | cons character rest induction =>
          rw [List.map_cons, List.cons_append, List.intercalate_cons_of_ne_nil (by simp), induction]
          rfl
  | cons first others => exact intercalate_splitAt first others characters

theorem splitAt_intercalate {mark : Char} {parts : List (List Char)} (filled : parts ≠ [])
    (free : ∀ part ∈ parts, mark ∉ part) : splitAt mark [] ([mark].intercalate parts) = parts := by
  induction parts with
  | nil => exact absurd rfl filled
  | cons part parts induction =>
      rw [List.forall_mem_cons] at free
      by_cases last : parts = []
      · subst last
        rw [List.intercalate_singleton, splitAt]
        split
        · rfl
        · rename_i found
          cases (cut?_of_not_mem free.1).symm.trans found
      · have others := induction last free.2
        rw [List.intercalate_cons_of_ne_nil last, List.append_assoc, List.singleton_append, splitAt]
        split
        · rename_i found
          cases (cut?_marked free.1 _).symm.trans found
        · rename_i found
          cases (cut?_marked free.1 _).symm.trans found
          rw [others]

/-! ## Texts -/

/-- No text is lost at any separator, not even at the empty one. -/
theorem intercalate_split (separator text : String) :
    separator.intercalate (split separator text) = text := by
  have same : String.toList ∘ String.ofList = id := funext fun _ => String.toList_ofList
  apply String.toList_injective
  rw [String.toList_intercalate, split, List.map_map, same, List.map_id,
    intercalate_splitCharacters]

theorem split_intercalate {mark : Char} {texts : List String} (filled : texts ≠ [])
    (free : ∀ text ∈ texts, mark ∉ text.toList) :
    split mark.toString (mark.toString.intercalate texts) = texts := by
  have same : String.ofList ∘ String.toList = id := funext fun _ => String.ofList_toList
  have parts : splitCharacters [mark] ([mark].intercalate (texts.map String.toList)) =
      texts.map String.toList :=
    splitAt_intercalate (by simpa using filled) (List.forall_mem_map.mpr free)
  have single : mark.toString.toList = [mark] := String.toList_singleton mark
  rw [split, String.toList_intercalate, single, parts, List.map_map, same, List.map_id]

end Stencil.Text
