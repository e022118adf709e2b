namespace Stencil.Text

/-! Splitting at a separator. Parts are cut at the leftmost occurrence each
time. The empty separator cuts between all characters and at both ends. -/

/-- What stands before the first occurrence of the separator, and what stands
behind it. -/
def cut? (separator : List Char) : List Char → Option (List Char × List Char)
  | [] => if separator.isEmpty then some ([], []) else none
  | character :: rest =>
      if separator.isPrefixOf (character :: rest) then
        some ([], (character :: rest).drop separator.length)
      else
        (cut? separator rest).map fun (before, behind) => (character :: before, behind)

/-- What stands behind a separator that is not empty is shorter than the whole. -/
theorem length_of_cut? {separator characters before behind : List Char}
    (filled : separator ≠ []) (found : cut? separator characters = some (before, behind)) :
    behind.length < characters.length := by
  induction characters generalizing before with
  | nil =>
      cases separator with
      | nil => exact absurd rfl filled
      | cons => simp [cut?] at found
  | cons character rest induction =>
      unfold cut? at found
      split at found
      · have positive : 0 < separator.length := List.length_pos_iff.mpr filled
        simp only [Option.some.injEq, Prod.mk.injEq] at found
        rw [← found.2, List.length_drop, List.length_cons]
        omega
      · simp only [Option.map_eq_some_iff, Prod.exists, Prod.mk.injEq] at found
        obtain ⟨before, _, cut, _, rfl⟩ := found
        exact Nat.lt_succ_of_lt (induction cut)

def splitAt (first : Char) (others : List Char) (characters : List Char) :
    List (List Char) :=
  match _found : cut? (first :: others) characters with
  | none => [characters]
  | some (before, behind) => before :: splitAt first others behind
termination_by characters.length
decreasing_by exact length_of_cut? (by simp) _found

def splitCharacters (separator characters : List Char) : List (List Char) :=
  match separator with
  | [] => [] :: (characters.map ([·]) ++ [[]])
  | first :: others => splitAt first others characters

def split (separator text : String) : List String :=
  (splitCharacters separator.toList text.toList).map .ofList

/-- What stands before and behind the first occurrence of a character. -/
def splitOnce? (separator : Char) (text : String) : Option (String × String) :=
  (cut? [separator] text.toList).map fun (before, behind) => (.ofList before, .ofList behind)

end Stencil.Text
