namespace Stencil

/-! Internet addresses are numbers below a power of two, together with the
family that tells which power. -/

inductive Family where
  | four
  | six
deriving DecidableEq, Repr

namespace Family

def bits : Family → Nat
  | .four => 32
  | .six => 128

/-- The number of addresses of a family. -/
def size (family : Family) : Nat := Nat.pow 2 family.bits

end Family

structure Address where
  family : Family
  value : Nat
  value_lt : value < family.size
deriving DecidableEq

namespace Address

/-- The address with this number, if the family has one. -/
def ofNat? (family : Family) (value : Nat) : Option Address :=
  if bound : value < family.size then some ⟨family, value, bound⟩ else none

theorem ofNat?_eq_some_iff {family : Family} {value : Nat} {address : Address} :
    ofNat? family value = some address ↔ address.family = family ∧ address.value = value := by
  unfold ofNat?
  constructor
  · intro found
    split at found
    · cases found; exact ⟨rfl, rfl⟩
    · cases found
  · rintro ⟨rfl, rfl⟩
    rw [dif_pos address.value_lt]

end Address

end Stencil
