import Mathlib.Data.List.OfFn
import Stencil.Address.Range

namespace Stencil.AddressRange

/-! The addresses of ranges, one range behind the other. An index finds the address at its place
without a list of them. -/

variable {range : AddressRange} {address : Address} {index : Nat}

/-- The address at a place of a range, counted from zero. -/
def place (range : AddressRange) (index : Fin (range.last - range.first + 1)) : Address where
  family := range.family
  value := range.first + index
  value_lt := by
    have ordered := range.first_le_last
    have bound := range.last_lt
    omega

/-- All addresses of a range, from the first to the last one. -/
def addresses (range : AddressRange) : List Address := .ofFn range.place

theorem length_addresses (range : AddressRange) :
    range.addresses.length = range.last - range.first + 1 := List.length_ofFn

theorem getElem?_addresses (inside : index < range.last - range.first + 1) :
    range.addresses[index]? = Address.ofNat? range.family (range.first + index) := by
  rw [addresses, List.getElem?_ofFn, dif_pos inside, eq_comm, Address.ofNat?_eq_some_iff]
  exact ⟨rfl, rfl⟩

theorem mem_addresses : address ∈ range.addresses ↔
    address.family = range.family ∧ range.first ≤ address.value ∧ address.value ≤ range.last := by
  have ordered := range.first_le_last
  rw [List.mem_iff_getElem?]
  constructor
  · rintro ⟨index, found⟩
    rcases List.getElem?_eq_some_iff.mp found with ⟨inside, -⟩
    rw [length_addresses] at inside
    rw [getElem?_addresses inside, Address.ofNat?_eq_some_iff] at found
    exact ⟨found.1, by omega⟩
  · rintro ⟨family, first, last⟩
    refine ⟨address.value - range.first, ?_⟩
    rw [getElem?_addresses (by omega), Address.ofNat?_eq_some_iff]
    exact ⟨family, by omega⟩

theorem addresses_ascending (range : AddressRange) :
    range.addresses.Pairwise fun before after => before.value < after.value :=
  List.pairwise_ofFn.mpr fun _ _ less => Nat.add_lt_add_left less range.first

/-- An index finds the address at its place. Only behind the whole space of the larger family, which
counts one address less, an index is too large for that. -/
theorem addressAt?_eq (ranges : List AddressRange) (small : index < Family.six.size - 1) :
    addressAt? ranges index = (ranges.flatMap addresses)[index]? := by
  induction ranges generalizing index with
  | nil => rfl
  | cons range ranges induction =>
      have size : range.size = min (range.last - range.first + 1) (Family.six.size - 1) := rfl
      rw [addressAt?, List.flatMap_cons]
      split
      · rename_i inside
        have inside : index < range.last - range.first + 1 := by omega
        rw [List.getElem?_append_left (by rwa [length_addresses]), getElem?_addresses inside]
      · rename_i outside
        have exact : range.size = range.addresses.length := by
          rw [length_addresses]
          omega
        rw [List.getElem?_append_right (by omega), exact]
        exact induction (by omega)

end Stencil.AddressRange
