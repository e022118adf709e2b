import Stencil.Address.Text
import Stencil.Address.Fault
import Stencil.Number.Read
import Stencil.Text.Separated

namespace Stencil

/-! Counting on addresses: steps and distances within a family, and ranges that are
written as a network with its mask length, as two ends, or as one address. -/

namespace Address

/-- The address in a text, white space around it aside. -/
def ofText (text : String) : Except AddressFault Address :=
  match read? (Text.trim text) with
  | some address => .ok address
  | none => .error (.noAddress (Text.trim text))

def isAddress (text : String) : Bool := (read? (Text.trim text)).isSome

/-- The address a number of places further, in the same family. -/
def offset (text : String) (delta : Int) : Except AddressFault Address := do
  let address ← ofText text
  let moved := (address.value : Int) + delta
  match (if 0 ≤ moved then ofNat? address.family moved.toNat else none) with
  | some address => return address
  | none => throw (.offset text delta)

/-- The number of places from the second address to the first. Both directions
have the range of the positive words. -/
def distance (left right : String) : Except AddressFault Int64 := do
  let left ← ofText left
  let right ← ofText right
  if left.family ≠ right.family then throw .families
  let difference :=
    if right.value ≤ left.value then Number.word? (left.value - right.value)
    else (Number.word? (right.value - left.value)).map (-·)
  match difference with
  | some distance => return distance
  | none => throw .overflow

end Address

/-! Ranges hold their first and their last address. -/

structure AddressRange where
  family : Family
  first : Nat
  last : Nat
  first_le_last : first ≤ last
  last_lt : last < family.size

namespace AddressRange

/-- The number of addresses; the full space of the larger family counts one less. -/
def size (range : AddressRange) : Nat :=
  min (range.last - range.first + 1) (Family.six.size - 1)

def firstAddress (range : AddressRange) : Address :=
  ⟨range.family, range.first, Nat.lt_of_le_of_lt range.first_le_last range.last_lt⟩

def lastAddress (range : AddressRange) : Address :=
  ⟨range.family, range.last, range.last_lt⟩

def single (address : Address) : AddressRange :=
  ⟨address.family, address.value, address.value, Nat.le_refl _, address.value_lt⟩

/-- The network of an address: all addresses that share its leading bits. -/
def network (address : Address) (length : Nat) (valid : length ≤ address.family.bits) :
    AddressRange :=
  let block := Nat.pow 2 (address.family.bits - length)
  { family := address.family
    first := address.value / block * block
    last := address.value / block * block + (block - 1)
    first_le_last := Nat.le_add_right _ _
    last_lt := by
      have positive : 0 < 2 ^ (address.family.bits - length) := Nat.two_pow_pos _
      have blocks : 2 ^ (address.family.bits - length) * 2 ^ length = address.family.size := by
        rw [← Nat.pow_add, Nat.sub_add_cancel valid]; rfl
      have below : address.value / 2 ^ (address.family.bits - length) < 2 ^ length := by
        rw [Nat.div_lt_iff_lt_mul positive, Nat.mul_comm, blocks]
        exact address.value_lt
      have whole := Nat.mul_le_mul_right (2 ^ (address.family.bits - length)) below
      rw [Nat.succ_mul, Nat.mul_comm (2 ^ length), blocks] at whole
      change address.value / 2 ^ (address.family.bits - length)
        * 2 ^ (address.family.bits - length) + (2 ^ (address.family.bits - length) - 1) < _
      omega }

/-- An address and a prefix length with a slash between them. -/
def ofNetwork (text : String) : Except AddressFault AddressRange :=
  match Text.splitOnce? '/' text with
  | none => .error (.noNetwork text)
  | some (address, length) => do
      let address ← Address.ofText address
      match Number.readUnsigned? 4294967295 (Text.trim length).toList with
      | none => throw (.prefixLength text)
      | some length =>
          if valid : length ≤ address.family.bits then return network address length valid
          else throw (.prefixLength text)

/-- A network, two addresses with a dash between them, or a single address. -/
def ofText (text : String) : Except AddressFault AddressRange :=
  if text.contains '/' then ofNetwork text
  else
    match Text.splitOnce? '-' text with
    | none => do return single (← Address.ofText text)
    | some (first, last) => do
        let first ← Address.ofText first
        let last ← Address.ofText last
        if matching : first.family = last.family ∧ first.value ≤ last.value then
          return ⟨last.family, first.value, last.value, matching.2, last.value_lt⟩
        else throw (.range text)

/-- The address at an index of the ranges one behind the other. -/
def addressAt? : List AddressRange → Nat → Option Address
  | [], _ => none
  | range :: ranges, index =>
      if index < range.size then Address.ofNat? range.family (range.first + index)
      else addressAt? ranges (index - range.size)

end AddressRange

end Stencil
