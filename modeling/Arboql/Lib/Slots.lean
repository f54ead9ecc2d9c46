import Arboql.Lib.CLayout

/-!
# Arrays of values in memory

A value of type `σ` that lies in a fixed number of bytes is read from its address, and
only these bytes matter (`Slot`). An array of such values is the list of what its
slots hold. A write inside one slot changes that entry of the list (`Slot.array_set`),
and a write outside the array changes nothing (`Slot.array_congr`).
-/

namespace CLayout

/-- **Values of type `σ` in memory**: their size and how they are read. -/
structure Slot (σ : Type) where
  size : ℕ
  read : (ℕ → UInt8) → ℕ → σ
  /-- Only the bytes of the slot matter. -/
  locality : ∀ bytes bytes' addr, (∀ a, addr ≤ a → a < addr + size → bytes' a = bytes a) →
    read bytes' addr = read bytes addr

namespace Slot

variable {σ : Type} (S : Slot σ) {bytes bytes' : ℕ → UInt8} {addr n i : ℕ}

/-- What the `n` slots from `addr` on hold. -/
def array (bytes : ℕ → UInt8) (addr n : ℕ) : List σ :=
  (List.range n).map fun i => S.read bytes (addr + i * S.size)

@[simp] theorem length_array : (S.array bytes addr n).length = n := by
  rw [array, List.length_map, List.length_range]

theorem getElem?_array (hi : i < n) :
    (S.array bytes addr n)[i]? = some (S.read bytes (addr + i * S.size)) := by
  rw [array, List.getElem?_map, List.getElem?_range hi, Option.map_some]

/-- The slots before the end of an array end before it. -/
theorem slot_le (hi : i < n) : i * S.size + S.size ≤ n * S.size := by
  rw [← Nat.succ_mul]
  exact Nat.mul_le_mul_right _ hi

/-- **What does not touch the array** leaves its entries. -/
theorem array_congr (h : ∀ a, addr ≤ a → a < addr + n * S.size → bytes' a = bytes a) :
    S.array bytes' addr n = S.array bytes addr n := by
  refine List.map_congr_left fun i hi => S.locality _ _ _ fun a ha hlt => h a ?_ ?_
  · omega
  · have hle := S.slot_le (List.mem_range.mp hi)
    omega

/-- **What touches one slot** changes one entry. -/
theorem array_set (h : ∀ a, a < addr + i * S.size ∨ addr + i * S.size + S.size ≤ a →
    bytes' a = bytes a) :
    S.array bytes' addr n = (S.array bytes addr n).set i (S.read bytes' (addr + i * S.size)) := by
  refine List.ext_getElem? fun j => ?_
  by_cases hj : j < n
  · rw [List.getElem?_set, getElem?_array S hj, getElem?_array S hj]
    by_cases hij : i = j
    · subst hij
      rw [if_pos rfl, if_pos (by rwa [length_array])]
    · -- slots with different numbers do not overlap
      rw [if_neg hij]
      refine congrArg some (S.locality _ _ _ fun a ha hlt => h a ?_)
      rcases Nat.lt_or_gt_of_ne hij with hlt' | hgt
      · have hle := S.slot_le hlt'
        omega
      · have hle := S.slot_le hgt
        omega
  · rw [List.getElem?_eq_none (by simpa using hj), List.getElem?_eq_none (by simpa using hj)]

end Slot

end CLayout
