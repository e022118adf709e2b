import Stencil.Proofs.Address.Words
import Stencil.Proofs.Expression.Scanning

namespace Stencil

/-! A network holds exactly the addresses that share its leading bits, whatever address of it and
whatever length it is written with. -/

/-! ## Unsigned numbers in texts -/

namespace Number

/-- The characters are digits of this number, leading zeros included, perhaps behind a plus sign. -/
def Spells (characters : List Char) (value : Nat) : Prop :=
  ∃ digits, digits ≠ [] ∧ (∀ digit ∈ digits, digit.isDigit = true) ∧ decimalValue digits = value ∧
    (characters = digits ∨ characters = '+' :: digits)

theorem readUnsigned?_of_spells {characters : List Char} {value : Nat}
    (spells : Spells characters value) (bound : Nat) :
    readUnsigned? bound characters = if value ≤ bound then some value else none := by
  rcases spells with ⟨digits, filled, all, rfl, written⟩
  have read : readDigits? digits = some (decimalValue digits) := by
    have every : digits.all Char.isDigit = true := List.all_eq_true.mpr all
    rw [readDigits?, every, List.isEmpty_eq_false_iff.mpr filled]
    rfl
  have unsigned : readUnsigned? bound characters = (readDigits? digits).filter (· ≤ bound) := by
    rcases written with rfl | rfl
    · unfold readUnsigned?
      split
      · exact absurd (all '+' List.mem_cons_self) (by decide)
      · rfl
    · rfl
  rw [unsigned, read, Option.filter_some]
  simp only [decide_eq_true_eq]

end Number

namespace AddressRange

variable {text front back : String} {address : Address} {length : Nat}

/-- An address and a length below the number of bits make a network, and longer lengths none. -/
theorem ofNetwork_eq (cut : Text.splitOnce? '/' text = some (front, back))
    (reads : Address.ofText front = .ok address)
    (spells : Number.Spells (Text.trim back).toList length) :
    ofNetwork text = if valid : length ≤ address.family.bits then .ok (network address length valid)
      else .error (.prefixLength text) := by
  have number := Number.readUnsigned?_of_spells spells 4294967295
  rw [ofNetwork, cut]
  simp only [reads, bind, Except.bind, pure, Except.pure, throw, throwThe, MonadExceptOf.throw,
    number]
  by_cases short : length ≤ 4294967295
  · rw [if_pos short]
  · have small : address.family.bits ≤ 128 := by cases address.family <;> decide
    rw [if_neg short, dif_neg (by omega)]

/-! ## The addresses of a network -/

/-- The addresses that have all bits but the last ones in common with an address. -/
structure IsNetwork (address : Address) (hosts : Nat) (range : AddressRange) : Prop where
  family : range.family = address.family
  aligned : 2 ^ hosts ∣ range.first
  whole : range.last = range.first + (2 ^ hosts - 1)
  member : range.first ≤ address.value ∧ address.value ≤ range.last
  shared : ∀ other : Address, other.family = address.family →
    (range.first ≤ other.value ∧ other.value ≤ range.last ↔
      other.value >>> hosts = address.value >>> hosts)

/-- Numbers in one block have one quotient. -/
theorem mem_block_iff {block : Nat} (positive : 0 < block) (value other : Nat) :
    value / block * block ≤ other ∧ other ≤ value / block * block + (block - 1) ↔
      other / block = value / block := by
  rw [Nat.div_eq_iff positive]
  have next : (value / block + 1) * block = value / block * block + block := by
    rw [Nat.add_mul, Nat.one_mul]
  omega

theorem isNetwork_network (valid : length ≤ address.family.bits) :
    IsNetwork address (address.family.bits - length) (network address length valid) := by
  have positive := Nat.two_pow_pos (address.family.bits - length)
  have members := mem_block_iff positive address.value
  exact {
    family := rfl
    aligned := Nat.dvd_mul_left _ _
    whole := rfl
    member := (members address.value).mpr rfl
    shared := fun other _ => by
      rw [Nat.shiftRight_eq_div_pow, Nat.shiftRight_eq_div_pow]
      exact members other.value }

namespace IsNetwork

variable {hosts hosts' : Nat} {range range' : AddressRange}

/-- The shorter the common bits, the larger the network. -/
theorem within (inner : IsNetwork address hosts range) (outer : IsNetwork address hosts' range')
    (fewer : hosts ≤ hosts') : range'.first ≤ range.first ∧ range.last ≤ range'.last := by
  -- Every address of the inner network shares the bits that the outer one asks for.
  have wider (other : Address) (same : other.family = address.family)
      (inside : range.first ≤ other.value ∧ other.value ≤ range.last) :
      range'.first ≤ other.value ∧ other.value ≤ range'.last := by
    have bits := (inner.shared other same).mp inside
    refine (outer.shared other same).mpr ?_
    rw [← Nat.sub_add_cancel fewer, Nat.add_comm, Nat.shiftRight_add, Nat.shiftRight_add, bits]
  have first := wider range.firstAddress inner.family ⟨Nat.le_refl _, range.first_le_last⟩
  have last := wider range.lastAddress inner.family ⟨range.first_le_last, Nat.le_refl _⟩
  exact ⟨first.1, last.2⟩

/-- As many addresses as there are numbers of that many bits. -/
theorem count (is : IsNetwork address hosts range) :
    (range.last : Int) - range.first + 1 = 2 ^ hosts := by
  have positive := Nat.two_pow_pos hosts
  have power : ((2 ^ hosts : Nat) : Int) = 2 ^ hosts := by norm_cast
  have whole := is.whole
  omega

end IsNetwork

end AddressRange

end Stencil
