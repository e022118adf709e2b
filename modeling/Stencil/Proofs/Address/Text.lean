import Stencil.Address.Range
import Stencil.Proofs.Expression.Scanning
import Stencil.Proofs.Text.Characters

namespace Stencil

/-! Every address is read back from its printed form: four decimal numbers, or groups in which
the longest run of zeros may be left out and the last two may stand as four decimal numbers. -/

namespace Address

variable {rest : List Char}

/-! ## Four decimal numbers -/

theorem readOctet?_toDigits {octet : Nat} (small : octet < 256)
    (ends : ∀ character ∈ rest.head?, character.isDigit = false) :
    readOctet? (Nat.toDigits 10 octet ++ rest) = some (octet, rest) := by
  have digits : (Nat.toDigits 10 octet ++ rest).takeWhile Char.isDigit = Nat.toDigits 10 octet :=
    takeWhile_digits (fun _ => Nat.isDigit_of_mem_toDigits (by decide) (by decide)) ends
  have behind : (Nat.toDigits 10 octet ++ rest).dropWhile Char.isDigit = rest := by
    have whole := List.takeWhile_append_dropWhile (p := Char.isDigit)
      (l := Nat.toDigits 10 octet ++ rest)
    rw [digits] at whole
    exact List.append_cancel_left whole
  have regular : ∀ octet < 256, ((Nat.toDigits 10 octet).isEmpty
      || decide (3 < (Nat.toDigits 10 octet).length)
      || ((Nat.toDigits 10 octet).head? == some '0'
        && decide (1 < (Nat.toDigits 10 octet).length))
      || decide (255 < octet)) = false := by decide +kernel
  have value := decimalValue_toDigits octet
  unfold Number.decimalValue at value
  simp only [readOctet?, digits, behind, value, regular octet small]
  rfl

/-- Nothing but a dot leads from the first number to the next one. -/
theorem readFour?_undotted {characters : List Char}
    (undotted : (characters.dropWhile Char.isDigit).head? ≠ some '.') :
    readFour? characters = none := by
  unfold readFour? readOctet?
  simp only
  split
  · rfl
  · simp only [Option.bind_eq_bind, Option.bind_some, readOctets?]
    split
    · rename_i behind
      exact absurd (congrArg List.head? behind) undotted
    · rfl

theorem toList_fourText (value : Nat) : (fourText value).toList =
    Nat.toDigits 10 (value / 16777216) ++ '.' :: (Nat.toDigits 10 (value / 65536 % 256) ++
      '.' :: (Nat.toDigits 10 (value / 256 % 256) ++ '.' :: Nat.toDigits 10 (value % 256))) := by
  simp [fourText, Nat.toList_repr]

theorem readFour?_fourText {value : Nat} (fits : value < 4294967296) :
    readFour? (fourText value).toList = some (value, []) := by
  have dotted (more : List Char) : ∀ character ∈ ('.' :: more).head?, character.isDigit = false := by
    simp
  have last := @readOctet?_toDigits [] (value % 256) (by omega) (by simp)
  rw [List.append_nil] at last
  rw [toList_fourText]
  simp only [readFour?, readOctets?, readOctet?_toDigits (show value / 16777216 < 256 by omega)
    (dotted _), readOctet?_toDigits (show value / 65536 % 256 < 256 by omega) (dotted _),
    readOctet?_toDigits (show value / 256 % 256 < 256 by omega) (dotted _), last,
    Option.bind_eq_bind, Option.bind_some]
  congr 2
  omega

/-! ## Groups -/

theorem hexadecimalDigit?_digitChar : ∀ digit < 16,
    hexadecimalDigit? (Nat.digitChar digit) = some digit := by decide

/-- The digits of a group stand for their numbers, from the top. -/
theorem toDigits_hexadecimal (group : Nat) :
    (∀ digit ∈ Nat.toDigits 16 group, (hexadecimalDigit? digit).isSome = true) ∧
    (Nat.toDigits 16 group).foldl
      (fun value digit => 16 * value + (hexadecimalDigit? digit).getD 0) 0 = group := by
  induction group using Nat.strongRecOn with
  | ind group induction =>
      rw [Nat.toDigits_eq_if (by decide)]
      split
      · rename_i small
        simp [hexadecimalDigit?_digitChar group small]
      · rcases induction (group / 16) (by omega) with ⟨digits, value⟩
        have last := hexadecimalDigit?_digitChar (group % 16) (by omega)
        rw [List.foldl_append, value]
        constructor
        · intro digit member
          rcases List.mem_append.mp member with member | member
          · exact digits digit member
          · rw [List.mem_singleton.mp member, last]
            rfl
        · simp only [List.foldl_cons, List.foldl_nil, last, Option.getD_some]
          omega

/-- Behind a group stands nothing or a colon. -/
def Bounds (rest : List Char) : Prop := ∀ character ∈ rest.head?, character = ':'

theorem readGroup?_toDigits {group : Nat} (small : group < 65536) (bounds : Bounds rest) :
    readGroup? (Nat.toDigits 16 group ++ rest) = some (group, rest) := by
  rcases toDigits_hexadecimal group with ⟨all, value⟩
  have digits : (Nat.toDigits 16 group ++ rest).takeWhile
      (fun character => (hexadecimalDigit? character).isSome) = Nat.toDigits 16 group := by
    rw [List.takeWhile_append_of_pos all]
    cases rest with
    | nil => simp
    | cons character rest =>
        cases bounds character rfl
        rw [List.takeWhile_cons_of_neg (by decide), List.append_nil]
  have short : (Nat.toDigits 16 group).length ≤ 4 :=
    (Nat.length_toDigits_le_iff (by decide) (by decide)).mpr small
  have filled : (Nat.toDigits 16 group).isEmpty = false := by simp [Nat.toDigits_ne_nil]
  simp only [readGroup?, digits, filled, value, List.drop_left, Bool.false_or,
    decide_eq_true_eq, if_neg (Nat.not_lt.mpr short)]

/-- No decimal numbers start where a group does. -/
theorem readFour?_toDigits (group : Nat) (bounds : Bounds rest) :
    readFour? (Nat.toDigits 16 group ++ rest) = none := by
  have undotted : ∀ digits : List Char,
      (∀ digit ∈ digits, (hexadecimalDigit? digit).isSome = true) →
        ((digits ++ rest).dropWhile Char.isDigit).head? ≠ some '.' := by
    intro digits
    induction digits with
    | nil =>
        intro _
        cases rest with
        | nil => simp
        | cons character rest =>
            cases bounds character rfl
            rw [List.nil_append, List.dropWhile_cons_of_neg (by decide)]
            simp
    | cons digit digits induction =>
        intro all
        rw [List.cons_append]
        by_cases decimal : digit.isDigit = true
        · rw [List.dropWhile_cons_of_pos decimal]
          exact induction fun digit member => all digit (List.mem_cons_of_mem _ member)
        · rw [List.dropWhile_cons_of_neg decimal]
          rintro ⟨⟩
          exact absurd (all '.' List.mem_cons_self) (by decide)
  exact readFour?_undotted (undotted _ (toDigits_hexadecimal group).1)

/-- Where groups end: at the end of the text, or at two colons. -/
inductive GroupsEnd : List Char → Prop where
  | nothing : GroupsEnd []
  | gap (more : List Char) : GroupsEnd (':' :: ':' :: more)

theorem GroupsEnd.bounds (ends : GroupsEnd rest) : Bounds rest := by
  cases ends <;> simp [Bounds]

theorem readFour?_colon (more : List Char) : readFour? (':' :: more) = none := rfl

theorem readGroup?_colon (more : List Char) : readGroup? (':' :: more) = none := rfl

/-- No group starts where groups end. -/
theorem readGroups_end (ends : GroupsEnd rest) (count : Nat) (first : Bool) :
    readGroups count first rest = ([], false, rest) := by
  cases count with
  | zero => rfl
  | succ count =>
      unfold readGroups
      cases ends with
      | nothing =>
          cases first <;> by_cases last : count = 0 <;>
            simp [behindColon?, last, readFour?, readOctet?, readGroup?]
      | gap more =>
          cases first <;> by_cases last : count = 0 <;>
            simp [behindColon?, last, readFour?_colon, readGroup?_colon]

/-- One group in front of the others. -/
theorem readGroups_group {first : Bool} {characters : List Char} {group : Nat} (count : Nat)
    (start : behindColon? first characters = some (Nat.toDigits 16 group ++ rest))
    (small : group < 65536) (bounds : Bounds rest) :
    readGroups (count + 1) first characters =
      (group :: (readGroups count false rest).1, (readGroups count false rest).2) := by
  rw [readGroups, start]
  simp only [Option.bind_some, readFour?_toDigits group bounds, readGroup?_toDigits small bounds,
    ite_self]

/-- Groups, each behind a colon. -/
def followers (groups : List Nat) : List Char :=
  groups.flatMap fun group => ':' :: Nat.toDigits 16 group

theorem followers_bounds (groups : List Nat) (bounds : Bounds rest) :
    Bounds (followers groups ++ rest) := by
  cases groups with
  | nil => exact bounds
  | cons group groups => simp [followers, Bounds]

theorem toList_groupsText (group : Nat) (groups : List Nat) :
    (groupsText (group :: groups)).toList = Nat.toDigits 16 group ++ followers groups := by
  induction groups generalizing group with
  | nil => simp [groupsText, groupText, followers]
  | cons other groups induction =>
      have induction := induction other
      unfold groupsText at induction ⊢
      rw [List.map_cons, List.map_cons, String.intercalate_cons_cons, ← List.map_cons,
        String.toList_append, String.toList_append, induction, groupText, String.toList_ofList]
      simp [followers]

theorem readGroups_followers {groups : List Nat} (small : ∀ group ∈ groups, group < 65536)
    (ends : GroupsEnd rest) {count : Nat} (room : groups.length ≤ count) :
    readGroups count false (followers groups ++ rest) = (groups, false, rest) := by
  induction groups generalizing count with
  | nil => exact readGroups_end ends count false
  | cons group groups induction =>
      cases count with
      | zero => cases room
      | succ count =>
          have behind := induction (fun group member => small group (List.mem_cons_of_mem _ member))
            (Nat.le_of_succ_le_succ room)
          have start : behindColon? false (followers (group :: groups) ++ rest) =
              some (Nat.toDigits 16 group ++ (followers groups ++ rest)) := by
            simp [followers, behindColon?]
          rw [readGroups_group count start (small group List.mem_cons_self)
            (followers_bounds groups ends.bounds), behind]

/-- As many groups are read as stand there. -/
theorem readGroups_groupsText {groups : List Nat} (small : ∀ group ∈ groups, group < 65536)
    (ends : GroupsEnd rest) {count : Nat} (room : groups.length ≤ count) :
    readGroups count true ((groupsText groups).toList ++ rest) = (groups, false, rest) := by
  cases groups with
  | nil => exact readGroups_end ends count true
  | cons group groups =>
      cases count with
      | zero => cases room
      | succ count =>
          have behind := readGroups_followers
            (fun group member => small group (List.mem_cons_of_mem _ member)) ends
            (Nat.le_of_succ_le_succ room)
          have start : behindColon? true ((groupsText (group :: groups)).toList ++ rest) =
              some (Nat.toDigits 16 group ++ (followers groups ++ rest)) := by
            rw [toList_groupsText, List.append_assoc]
            rfl
          rw [readGroups_group count start (small group List.mem_cons_self)
            (followers_bounds groups ends.bounds), behind]

theorem readFour?_groupsText (groups : List Nat) (ends : GroupsEnd rest) :
    readFour? ((groupsText groups).toList ++ rest) = none := by
  cases groups with
  | nil => cases ends <;> rfl
  | cons group groups =>
      rw [toList_groupsText, List.append_assoc]
      exact readFour?_toDigits group (followers_bounds groups ends.bounds)

/-! ## The longest run of zeros -/

/-- Zeros stand in this stretch of the groups. -/
def Gap.Holds (gap : Gap) (groups : List Nat) : Prop :=
  ∃ before behind, groups = before ++ (List.replicate gap.length 0 ++ behind) ∧
    before.length = gap.start

/-- The groups that are done end in this stretch of zeros, which may be empty. -/
def Gap.Runs (gap : Gap) (done : List Nat) : Prop :=
  ∃ before, done = before ++ List.replicate gap.length 0 ∧
    (gap.length ≠ 0 → before.length = gap.start)

theorem longestGap_holds {groups done : List Nat} {running longest : Gap}
    (runs : running.Runs done) (holds : longest.Holds (done ++ groups)) :
    (longestGap groups done.length running longest).Holds (done ++ groups) := by
  induction groups generalizing done running longest with
  | nil => exact holds
  | cons group groups induction =>
      have shifted : done ++ group :: groups = (done ++ [group]) ++ groups := by simp
      have index : done.length + 1 = (done ++ [group]).length := by simp
      unfold longestGap
      split
      · rename_i zero
        subst zero
        generalize next : (if running.length = 0 then (⟨done.length, 1⟩ : Gap)
          else ⟨running.start, running.length + 1⟩) = extended
        have runs : extended.Runs (done ++ [0]) := by
          rcases runs with ⟨before, rfl, start⟩
          subst next
          split
          · rename_i fresh
            exact ⟨before ++ List.replicate running.length 0, rfl, fun _ => rfl⟩
          · rename_i further
            exact ⟨before, by rw [List.replicate_succ', List.append_assoc], fun _ => start further⟩
        have filled : extended.length ≠ 0 := by
          subst next
          split <;> simp
        simp only
        rw [index, shifted]
        refine induction runs ?_
        split
        · rcases runs with ⟨before, whole, start⟩
          refine ⟨before, groups, ?_, start filled⟩
          rw [whole, List.append_assoc]
        · rwa [← shifted]
      · rw [index, shifted]
        refine induction ⟨done ++ [group], by simp, fun filled => absurd rfl filled⟩ ?_
        rwa [← shifted]

/-! ## Eight groups -/

theorem length_groups (value : Nat) : (groups value).length = 8 := by simp [groups]

theorem groups_small (value : Nat) : ∀ group ∈ groups value, group < 65536 := by
  unfold groups
  rw [List.forall_mem_map]
  exact fun _ _ => Nat.mod_lt _ (by decide)

/-- Any number of groups from the top have the number that the low digits have. -/
theorem groupsValue_digits (value count : Nat) :
    groupsValue ((List.range count).map fun index => value / 65536 ^ (count - 1 - index) % 65536) =
      value % 65536 ^ count := by
  induction count generalizing value with
  | zero => rw [Nat.pow_zero, Nat.mod_one]; rfl
  | succ count induction =>
      have front : ((List.range count).map fun index => value / 65536 ^ (count - index) % 65536) =
          (List.range count).map fun index => value / 65536 / 65536 ^ (count - 1 - index) % 65536 := by
        refine List.map_congr_left fun index member => ?_
        have above : count - index = count - 1 - index + 1 := by
          have inside := List.mem_range.mp member
          omega
        rw [above, Nat.pow_succ', Nat.div_div_eq_div_mul]
      have upper := induction (value / 65536)
      unfold groupsValue at upper ⊢
      rw [List.range_succ, List.map_append, Nat.add_sub_cancel, front, List.foldl_append, upper,
        Nat.pow_succ', Nat.mod_mul]
      simp only [List.map_singleton, List.foldl_cons, List.foldl_nil, Nat.sub_self, Nat.pow_zero,
        Nat.div_one]
      exact Nat.add_comm _ _

theorem groupsValue_groups {value : Nat} (fits : value < Family.six.size) :
    groupsValue (groups value) = value :=
  (groupsValue_digits value 8).trans (Nat.mod_eq_of_lt fits)

/-- What has a gap is put together from the groups before it, its zeros and the groups behind it. -/
theorem readSix?_gap {groups : List Nat} {gap : Gap} (whole : groups.length = 8)
    (small : ∀ group ∈ groups, group < 65536) (holds : gap.Holds groups) (long : 1 < gap.length) :
    readSix? ((groupsText (groups.take gap.start)).toList ++
        (':' :: ':' :: (groupsText (groups.drop (gap.start + gap.length))).toList)) =
      some (groupsValue groups, []) := by
  rcases holds with ⟨before, behind, rfl, start⟩
  simp only [List.length_append, List.length_replicate] at whole
  have front : (before ++ (List.replicate gap.length 0 ++ behind)).take gap.start = before := by
    rw [← start, List.take_left]
  have back : (before ++ (List.replicate gap.length 0 ++ behind)).drop (gap.start + gap.length) =
      behind := by
    rw [← List.append_assoc, List.drop_left' (by simp [start])]
  have head := readGroups_groupsText
    (fun group member => small group (List.mem_append_left _ member))
    (.gap (groupsText behind).toList) (show before.length ≤ 8 by omega)
  have tail := readGroups_groupsText
    (fun group member => small group (List.mem_append_right _ (List.mem_append_right _ member)))
    .nothing (show behind.length ≤ 7 - before.length by omega)
  rw [List.append_nil] at tail
  have zeros : 8 - before.length - behind.length = gap.length := by omega
  rw [front, back, readSix?]
  simp only [head, tail, if_neg (show ¬ before.length = 8 by omega), zeros, List.append_assoc]
  rfl

/-- A gap at the front makes up for all groups that are not there. -/
theorem readSix?_leading {more : List Char} {groups : List Nat} {decimal : Bool}
    (read : readGroups 7 true more = (groups, decimal, rest)) :
    readSix? (':' :: ':' :: more) =
      some (groupsValue (List.replicate (8 - groups.length) 0 ++ groups), rest) := by
  have head : readGroups 8 true (':' :: ':' :: more) = ([], false, ':' :: ':' :: more) :=
    readGroups_end (.gap more) 8 true
  rw [readSix?]
  simp only [head, List.length_nil, Nat.sub_zero, read]
  rfl

theorem toList_sixText_mapped {value : Nat} (mapped : value / 4294967296 = 65535) :
    (sixText value).toList =
      "::ffff:".toList ++ (fourText (value % 4294967296)).toList := by
  rw [sixText, if_pos mapped, String.toList_append]

/-- The other addresses are written in groups, with a gap or without one. -/
theorem toList_sixText {value : Nat} (plain : value / 4294967296 ≠ 65535) :
    (sixText value).toList = (groupsText (groups value)).toList ∨
    ∃ gap : Gap, gap.Holds (groups value) ∧ 1 < gap.length ∧
      (sixText value).toList = (groupsText ((groups value).take gap.start)).toList ++
        (':' :: ':' :: (groupsText ((groups value).drop (gap.start + gap.length))).toList) := by
  have holds : (longestGap (groups value) 0 ⟨0, 0⟩ ⟨0, 0⟩).Holds (groups value) :=
    @longestGap_holds (groups value) [] _ _ ⟨[], rfl, fun filled => absurd rfl filled⟩
      ⟨[], groups value, rfl, rfl⟩
  rw [sixText, if_neg plain]
  simp only
  split
  · rename_i long
    exact .inr ⟨_, holds, long, by simp⟩
  · exact .inl rfl

theorem readFour?_sixText (value : Nat) : readFour? (sixText value).toList = none := by
  by_cases mapped : value / 4294967296 = 65535
  · rw [toList_sixText_mapped mapped]
    exact readFour?_colon _
  · rcases toList_sixText mapped with same | ⟨gap, -, -, same⟩
    · rw [same, ← List.append_nil (groupsText (groups value)).toList]
      exact readFour?_groupsText _ .nothing
    · rw [same]
      exact readFour?_groupsText _ (.gap _)

theorem readSix?_sixText {value : Nat} (fits : value < Family.six.size) :
    readSix? (sixText value).toList = some (value, []) := by
  by_cases mapped : value / 4294967296 = 65535
  · -- Two colons, the group above the decimal numbers, and these as the last two groups.
    have four := readFour?_fourText (Nat.mod_lt value (show 0 < 4294967296 by decide))
    rw [toList_sixText_mapped mapped]
    generalize (fourText (value % 4294967296)).toList = decimal at four
    have last : readGroups 6 false (':' :: decimal) =
        ([value % 4294967296 / 65536, value % 4294967296 % 65536], true, []) := by
      simp [readGroups, behindColon?, four]
    have tail : readGroups 7 true ("ffff:".toList ++ decimal) =
        ([65535, value % 4294967296 / 65536, value % 4294967296 % 65536], true, []) := by
      have bounds : Bounds (':' :: decimal) := by simp [Bounds]
      have start : behindColon? true ("ffff:".toList ++ decimal) =
        some (Nat.toDigits 16 65535 ++ ':' :: decimal) := rfl
      have group := readGroups_group 6 start (by decide) bounds
      rwa [last] at group
    have split : "::ffff:".toList ++ decimal = ':' :: ':' :: ("ffff:".toList ++ decimal) := rfl
    rw [split, readSix?_leading tail]
    simp only [groupsValue, List.length_cons, List.length_nil, Nat.reduceAdd, Nat.reduceSub,
      List.replicate, List.cons_append, List.nil_append, List.foldl_cons, List.foldl_nil]
    congr 2
    omega
  · rcases toList_sixText mapped with same | ⟨gap, holds, long, same⟩
    · have head := readGroups_groupsText (groups_small value) .nothing
        (Nat.le_of_eq (length_groups value))
      rw [List.append_nil] at head
      rw [same, readSix?]
      simp only [head, length_groups, if_true, groupsValue_groups fits]
    · rw [same, readSix?_gap (length_groups value) (groups_small value) holds long,
        groupsValue_groups fits]

/-! ## Addresses -/

/-- A printed address is read back. -/
theorem read?_print (address : Address) : read? address.print = some address := by
  rcases address with ⟨family, value, fits⟩
  cases family with
  | four =>
      have four := readFour?_fourText fits
      simp only [read?, print, four, ofNat?_eq_some_iff, true_and]
  | six =>
      simp only [read?, print, readFour?_sixText, readSix?_sixText fits, ofNat?_eq_some_iff,
        true_and]

theorem trim_print (address : Address) : Text.trim address.print = address.print := by
  have visible : ∀ character ∈ address.print.toList, ¬ Text.isBlank character = true := by
    intro character member blank
    have noDigit : NoDigit character := .of_not_mem
      (fun digit small same => by
        have visible : ∀ digit < 16, Text.isBlank (Nat.digitChar digit) = false := by decide
        rw [← same, visible digit small] at blank
        cases blank)
      (by rintro rfl; cases blank)
    have lacks := noDigit.print (by rintro rfl; cases blank) (by rintro rfl; cases blank) address
    exact Text.lacks_iff.mp lacks member
  have start : Text.trimStart address.print.toList = address.print.toList := by
    unfold Text.trimStart
    exact List.dropWhile_eq_self_iff.mpr fun filled => visible _ (List.getElem_mem filled)
  have ends : Text.trimEnd address.print.toList = address.print.toList := by
    unfold Text.trimEnd
    rw [List.dropWhile_eq_self_iff.mpr, List.reverse_reverse]
    exact fun filled => visible _ (List.mem_reverse.mp (List.getElem_mem filled))
  rw [Text.trim, start, ends, String.ofList_toList]

theorem ofText_print (address : Address) : ofText address.print = .ok address := by
  unfold ofText
  rw [trim_print, read?_print]

theorem isAddress_iff {text : String} :
    isAddress text = true ↔ ∃ address, ofText text = .ok address := by
  unfold isAddress ofText
  cases read? (Text.trim text) with
  | none => simp
  | some address => simp

end Address

end Stencil
