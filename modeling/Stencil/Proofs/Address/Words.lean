import Mathlib.Data.Nat.Bitwise
import Stencil.Address.Range
import Stencil.Expression.Basic

namespace Stencil

/-! Counting on addresses in machine words. The numbers of both families are unsigned words of 128
bits, and steps are signed ones. An operation on words has no result where the exact result is no
word. That never happens on the way, and what is counted in words is what is counted in numbers. -/

/-- An unsigned word of 128 bits. -/
abbrev Wide := BitVec 128

namespace Wide

/-- The word with this value, if there is one. -/
def ofInt? (value : Int) : Option Wide :=
  if 0 ≤ value ∧ value < 2 ^ 128 then some (.ofInt 128 value) else none

def add? (left right : Wide) : Option Wide := ofInt? (left.toNat + right.toNat)

def subtract? (left right : Wide) : Option Wide := ofInt? (left.toNat - right.toNat)

/-- A word can be shifted by less than the number of its bits. -/
def shift? (word : Wide) (count : Nat) : Option Wide :=
  if count < 128 then some (word <<< count) else none

/-- The sum, or the greatest word. -/
def addSaturated (left right : Wide) : Wide := (add? left right).getD (.allOnes 128)

/-- The opposite of a signed word; the least one has none. -/
def negate? (word : BitVec 128) : Option (BitVec 128) :=
  if word = .intMin 128 then none else some (-word)

variable {left right word : Wide}

theorem ofInt?_eq_some_iff {value : Int} : ofInt? value = some word ↔ (word.toNat : Int) = value := by
  have bound := word.isLt
  unfold ofInt?
  constructor
  · intro fits
    split at fits
    · cases fits
      rw [BitVec.toNat_ofInt]
      omega
    · cases fits
  · rintro rfl
    rw [if_pos (by omega)]
    simp

theorem ofInt?_eq_none_iff {value : Int} : ofInt? value = none ↔ ¬ (0 ≤ value ∧ value < 2 ^ 128) := by
  unfold ofInt?
  split <;> simp_all

theorem add?_eq_some_iff : add? left right = some word ↔ word.toNat = left.toNat + right.toNat := by
  rw [add?, ofInt?_eq_some_iff]
  omega

theorem subtract?_eq_some_iff :
    subtract? left right = some word ↔ left.toNat = word.toNat + right.toNat := by
  rw [subtract?, ofInt?_eq_some_iff]
  omega

/-- Differences of smaller words are words. -/
theorem exists_subtract? (left right : Wide) (le : right.toNat ≤ left.toNat) :
    ∃ word, subtract? left right = some word ∧ word.toNat = left.toNat - right.toNat := by
  refine ⟨left - right, ?_, BitVec.toNat_sub_of_le le⟩
  rw [subtract?_eq_some_iff, BitVec.toNat_sub_of_le le]
  omega

theorem exists_add? (left right : Wide) (fits : left.toNat + right.toNat < 2 ^ 128) :
    ∃ word, add? left right = some word ∧ word.toNat = left.toNat + right.toNat := by
  refine ⟨left + right, ?_, ?_⟩
  · rw [add?_eq_some_iff, BitVec.toNat_add, Nat.mod_eq_of_lt fits]
  · rw [BitVec.toNat_add, Nat.mod_eq_of_lt fits]

theorem toNat_addSaturated :
    (addSaturated left right).toNat = min (left.toNat + right.toNat) (2 ^ 128 - 1) := by
  unfold addSaturated
  cases sum : add? left right with
  | some word =>
      have bound := word.isLt
      have exact := add?_eq_some_iff.mp sum
      simp only [Option.getD_some]
      omega
  | none =>
      have wide := ofInt?_eq_none_iff.mp sum
      simp only [Option.getD_none, BitVec.toNat_allOnes]
      omega

/-- The bits outside a mask and the bits of the mask make up the word. -/
theorem toNat_clear (word mask : Wide) :
    (word &&& ~~~mask).toNat + (word &&& mask).toNat = word.toNat := by
  have apart : (word &&& ~~~mask) &&& (word &&& mask) = 0 := by
    ext index
    cases bit : mask[index] <;> simp [bit]
  have whole : (word &&& ~~~mask) ||| (word &&& mask) = word := by
    ext index
    cases bit : mask[index] <;> simp [bit]
  rw [← BitVec.toNat_add_of_and_eq_zero apart, BitVec.add_eq_or_of_and_eq_zero _ _ apart, whole]

theorem toNat_fill (word mask : Wide) :
    (word ||| mask).toNat = (word &&& ~~~mask).toNat + mask.toNat := by
  have apart : (word &&& ~~~mask) &&& mask = 0 := by
    ext index
    cases bit : mask[index] <;> simp [bit]
  have whole : (word &&& ~~~mask) ||| mask = word ||| mask := by
    ext index
    cases bit : mask[index] <;> simp [bit]
  rw [← BitVec.toNat_add_of_and_eq_zero apart, BitVec.add_eq_or_of_and_eq_zero _ _ apart, whole]

end Wide

/-- The greatest number of a family. -/
def Family.greatest : Family → Wide
  | .four => 4294967295
  | .six => .allOnes 128

theorem Family.toNat_greatest (family : Family) : family.greatest.toNat + 1 = family.size := by
  cases family <;> rfl

theorem Family.size_le (family : Family) : family.size ≤ 2 ^ 128 := by
  cases family <;> decide

namespace Address

def word (address : Address) : Wide := .ofNat 128 address.value

theorem toNat_word (address : Address) : address.word.toNat = address.value :=
  (BitVec.toNat_ofNat _ _).trans
    (Nat.mod_eq_of_lt (Nat.lt_of_lt_of_le address.value_lt address.family.size_le))

/-- The address that a word stands for. The smaller family keeps the low 32 bits only. -/
def ofWord : Family → Wide → Address
  | .four, word => ⟨.four, (word.setWidth 32).toNat, (word.setWidth 32).isLt⟩
  | .six, word => ⟨.six, word.toNat, word.isLt⟩

/-- Nothing is lost of the numbers that a family has. -/
theorem ofNat?_eq_ofWord {family : Family} {word : Wide} (fits : word.toNat < family.size) :
    ofNat? family word.toNat = some (ofWord family word) := by
  rw [ofNat?_eq_some_iff]
  cases family with
  | four => exact ⟨rfl, (BitVec.toNat_setWidth _ _).trans (Nat.mod_eq_of_lt fits)⟩
  | six => exact ⟨rfl, rfl⟩

/-! ## Steps -/

/-- The address with this number, if the family has one. -/
def ofInt? (family : Family) (number : Int) : Option Address :=
  if 0 ≤ number then ofNat? family number.toNat else none

theorem ofInt?_eq_some_iff {family : Family} {number : Int} {address : Address} :
    ofInt? family number = some address ↔ address.family = family ∧ (address.value : Int) = number := by
  unfold ofInt?
  split
  · rw [ofNat?_eq_some_iff]
    exact and_congr_right fun _ => by omega
  · rename_i negative
    refine iff_of_false nofun ?_
    rintro ⟨-, rfl⟩
    exact negative (Int.natCast_nonneg _)

theorem ofInt?_eq_none_iff {family : Family} {number : Int} :
    ofInt? family number = none ↔ ¬ (0 ≤ number ∧ number < 2 ^ family.bits) := by
  have size : (family.size : Int) = 2 ^ family.bits := by cases family <;> rfl
  unfold ofInt? ofNat?
  rw [← size]
  split
  · split <;> simp <;> omega
  · simp only [true_iff]
    omega

/-- A step leads to the address with the sum of the numbers, if there is one. -/
theorem offset_eq {text : String} {address : Address} (reads : ofText text = .ok address)
    (step : Int) : offset text step =
      (ofInt? address.family (address.value + step)).elim (.error (.offset text step)) .ok := by
  rw [offset, reads, ofInt?]
  simp only [bind, Except.bind, pure, Except.pure]
  split <;> (rename_i found; rw [found]; rfl)

/-- The signed word of a step; what is subtracted is added with the opposite sign. -/
def step? (operator : Operator) (distance : Int64) : Option (BitVec 128) :=
  let step := distance.toBitVec.signExtend 128
  if operator = .subtract then Wide.negate? step else some step

/-- The word a step further: the magnitude of the step is added or subtracted. -/
def stepped? (word : Wide) (step : BitVec 128) : Option Wide :=
  if step.slt 0 then word.subtract? step.abs else word.add? step.abs

/-- The address a step further, if the family has it. -/
def moved? (address : Address) (step : BitVec 128) : Option Address := do
  let moved ← stepped? address.word step
  if moved ≤ address.family.greatest then some (ofWord address.family moved) else none

/-- The number that an operator adds. -/
def stepOf (operator : Operator) (distance : Int64) : Int :=
  if operator = .subtract then -distance.toInt else distance.toInt

theorem stepOf_add (distance : Int64) : stepOf .add distance = distance.toInt := rfl

theorem stepOf_subtract (distance : Int64) : stepOf .subtract distance = -distance.toInt := rfl

theorem toInt_signExtend (distance : Int64) :
    (distance.toBitVec.signExtend 128).toInt = distance.toInt := by
  rw [BitVec.toInt_signExtend_of_le (by decide), Int64.toInt_toBitVec]

/-- Every word has an opposite among the longer ones. -/
theorem exists_step? (operator : Operator) (distance : Int64) :
    ∃ step, step? operator distance = some step ∧ step.toInt = stepOf operator distance := by
  have same := toInt_signExtend distance
  unfold step? stepOf
  split
  · have regular : distance.toBitVec.signExtend 128 ≠ .intMin 128 := by
      intro least
      have lower := distance.le_toInt
      rw [least] at same
      rw [← same] at lower
      exact absurd lower (by decide)
    rw [Wide.negate?, if_neg regular]
    exact ⟨_, rfl, by rw [BitVec.toInt_neg_of_ne_intMin regular, same]⟩
  · exact ⟨_, rfl, same⟩

theorem toNat_abs (step : BitVec 128) : step.abs.toNat = step.toInt.natAbs := by
  have bound := step.isLt
  rw [BitVec.toNat_abs, BitVec.toInt_eq_msb_cond]
  split <;> omega

theorem stepped?_eq (word : Wide) (step : BitVec 128) :
    stepped? word step = Wide.ofInt? (word.toNat + step.toInt) := by
  have magnitude := toNat_abs step
  have sign : step.slt 0 = decide (step.toInt < 0) := BitVec.slt_eq_decide
  rw [stepped?, sign]
  split
  · rename_i negative
    have negative := of_decide_eq_true negative
    rw [Wide.subtract?, magnitude]
    congr 1
    omega
  · rename_i positive
    have positive : ¬ step.toInt < 0 := fun negative => positive (decide_eq_true negative)
    rw [Wide.add?, magnitude]
    congr 1
    omega

/-- A step in words leads where it leads in numbers. -/
theorem moved?_eq (address : Address) (step : BitVec 128) :
    address.moved? step = ofInt? address.family (address.value + step.toInt) := by
  have greatest := address.family.toNat_greatest
  have bound := address.family.size_le
  rw [moved?, stepped?_eq, address.toNat_word, ofInt?]
  cases moved : Wide.ofInt? (address.value + step.toInt) with
  | none =>
      have outside := Wide.ofInt?_eq_none_iff.mp moved
      split
      · rename_i positive
        have beyond : ¬ (address.value + step.toInt).toNat < address.family.size := by omega
        rw [ofNat?, dif_neg beyond]
        rfl
      · rfl
  | some word =>
      have exact := Wide.ofInt?_eq_some_iff.mp moved
      have same : (address.value + step.toInt).toNat = word.toNat := by omega
      rw [if_pos (by omega), same]
      simp only [Option.bind_eq_bind, Option.bind_some, BitVec.le_def]
      split
      · exact (ofNat?_eq_ofWord (by omega)).symm
      · rw [ofNat?, dif_neg (by omega)]

end Address

namespace AddressRange

theorem toNat_first (range : AddressRange) : range.firstAddress.word.toNat = range.first :=
  Address.toNat_word _

theorem toNat_last (range : AddressRange) : range.lastAddress.word.toNat = range.last :=
  Address.toNat_word _

/-! ## Networks -/

/-- The bits that are left to the hosts; all of them are no shifted word. -/
def mask? (count : Nat) : Option Wide :=
  if count = 128 then some (.allOnes 128) else do (← Wide.shift? 1 count).subtract? 1

/-- The first and the last address of a network: the bits of the hosts cleared and filled. -/
def network? (address : Address) (length : Nat) : Option (Wide × Wide) := do
  let count ← if length ≤ address.family.bits then some (address.family.bits - length) else none
  let mask ← mask? count
  return (address.word &&& ~~~mask, address.word ||| mask)

theorem exists_mask? {count : Nat} (most : count ≤ 128) :
    ∃ mask, mask? count = some mask ∧ mask.toNat = 2 ^ count - 1 := by
  unfold mask?
  by_cases all : count = 128
  · subst all
    exact ⟨_, if_pos rfl, BitVec.toNat_allOnes⟩
  · have less : count < 128 := by omega
    have power : ((1 : Wide) <<< count).toNat = 2 ^ count := by
      rw [BitVec.toNat_shiftLeft, Nat.shiftLeft_eq]
      exact (congrArg (· % 2 ^ 128) (Nat.one_mul _)).trans
        (Nat.mod_eq_of_lt (Nat.pow_lt_pow_right (by decide) less))
    have positive := Nat.two_pow_pos count
    rcases Wide.exists_subtract? ((1 : Wide) <<< count) 1
      (by rw [power]; exact positive) with ⟨mask, found, exact⟩
    refine ⟨mask, ?_, by rw [exact, power]; rfl⟩
    rw [if_neg all, Wide.shift?, if_pos less]
    exact found

/-- Masks give the network, and they are there for every length. -/
theorem network?_eq {address : Address} {length : Nat} (valid : length ≤ address.family.bits) :
    network? address length = some ((network address length valid).firstAddress.word,
      (network address length valid).lastAddress.word) := by
  have most : address.family.bits - length ≤ 128 :=
    Nat.le_trans (Nat.sub_le _ _) (by cases address.family <;> decide)
  rcases exists_mask? most with ⟨mask, found, exact⟩
  have clear := Wide.toNat_clear address.word mask
  have rest : (address.word &&& mask).toNat =
      address.value % 2 ^ (address.family.bits - length) := by
    rw [BitVec.toNat_and, exact, Nat.and_two_pow_sub_one_eq_mod, address.toNat_word]
  rw [rest, address.toNat_word] at clear
  have parts := Nat.div_add_mod' address.value (2 ^ (address.family.bits - length))
  have first : (address.word &&& ~~~mask).toNat =
      address.value / 2 ^ (address.family.bits - length) * 2 ^ (address.family.bits - length) := by
    omega
  have lower : address.word &&& ~~~mask = (network address length valid).firstAddress.word := by
    refine BitVec.eq_of_toNat_eq ?_
    rw [first, toNat_first]
    rfl
  have upper : address.word ||| mask = (network address length valid).lastAddress.word := by
    refine BitVec.eq_of_toNat_eq ?_
    rw [Wide.toNat_fill, first, exact, toNat_last]
    rfl
  rw [network?, if_pos valid]
  simp only [Option.bind_eq_bind, Option.bind_some, found, lower, upper]
  rfl

/-- The number of the addresses of a range, as a signed word. -/
def count? (first last : Wide) : Option Int64 := do
  let difference ← last.subtract? first
  let count ← difference.add? 1
  Number.word? count.toNat

theorem count?_eq (range : AddressRange) :
    count? range.firstAddress.word range.lastAddress.word =
      Number.word? (range.last - range.first + 1) := by
  have ordered := range.first_le_last
  have first := range.toNat_first
  have last := range.toNat_last
  have one : (1 : Wide).toNat = 1 := BitVec.toNat_ofNat 1 128
  rcases Wide.exists_subtract? range.lastAddress.word range.firstAddress.word
    (by omega) with ⟨difference, found, exact⟩
  rw [count?, found, Option.bind_eq_bind, Option.bind_some]
  cases sum : difference.add? 1 with
  | some count =>
      have sum := Wide.add?_eq_some_iff.mp sum
      have same : (count.toNat : Int) = range.last - range.first + 1 := by omega
      rw [Option.bind_some, same]
  | none =>
      have wide := Wide.ofInt?_eq_none_iff.mp sum
      rw [Option.bind_none, eq_comm, Number.word?_eq_none_iff, Number.maximum]
      omega

/-! ## Indexing -/

def sizeWord? (range : AddressRange) : Option Wide := do
  let difference ← range.lastAddress.word.subtract? range.firstAddress.word
  return difference.addSaturated 1

/-- The address at an index; the sizes of the ranges before it are taken off the index. -/
def addressAtWord? : List AddressRange → Wide → Option (Option Address)
  | [], _ => some none
  | range :: ranges, index => do
      let size ← sizeWord? range
      if index < size then
        return some (Address.ofWord range.family (← range.firstAddress.word.add? index))
      else addressAtWord? ranges (← index.subtract? size)

theorem exists_sizeWord? (range : AddressRange) :
    ∃ size, sizeWord? range = some size ∧ size.toNat = range.size := by
  have ordered := range.first_le_last
  have first := range.toNat_first
  have last := range.toNat_last
  rcases Wide.exists_subtract? range.lastAddress.word range.firstAddress.word
    (by omega) with ⟨difference, found, exact⟩
  refine ⟨difference.addSaturated 1, by rw [sizeWord?, found]; rfl, ?_⟩
  rw [Wide.toNat_addSaturated, exact, first, last]
  rfl

/-- Every index into ranges is looked up without leaving the words. -/
theorem addressAtWord?_eq (ranges : List AddressRange) (index : Wide) :
    addressAtWord? ranges index = some (addressAt? ranges index.toNat) := by
  induction ranges generalizing index with
  | nil => rfl
  | cons range ranges induction =>
      have ordered := range.first_le_last
      have bound := range.last_lt
      have whole := range.family.size_le
      have first := range.toNat_first
      rcases exists_sizeWord? range with ⟨size, found, exact⟩
      have most : range.size ≤ range.last - range.first + 1 := Nat.min_le_left _ _
      rw [addressAtWord?, addressAt?, found]
      simp only [Option.bind_eq_bind, Option.bind_some, BitVec.lt_def, exact]
      split
      · rename_i inside
        rcases Wide.exists_add? range.firstAddress.word index
          (by omega) with ⟨word, sum, value⟩
        rw [first] at value
        rw [sum, Option.bind_some, ← value, Address.ofNat?_eq_ofWord (by omega)]
        rfl
      · rename_i outside
        rcases Wide.exists_subtract? index size (by omega)
          with ⟨word, difference, value⟩
        rw [difference, Option.bind_some, induction, value, exact]

end AddressRange

end Stencil
