import Mathlib.Data.BitVec
import Mathlib.Data.Set.Basic
import Mathlib.Tactic.Ring

/-!
# Ranges of addresses

Addresses wrap around, so a range is given by its first address and its length: the
addresses whose distance from the first one is less than the length.  Ranges that follow
each other make one range (`byteRange_add`), and filling them one after the other is filling
all of it (`fill_add`).
-/

set_option autoImplicit false

namespace AnonCompiler.Lib

variable {w : Nat} {β : Type}

def byteRange (base : BitVec w) (n : Nat) : Set (BitVec w) := {a | (a - base).toNat < n}

/-- A memory with one value in the whole range. -/
def fill (memory : BitVec w → β) (base : BitVec w) (n : Nat) (value : β) : BitVec w → β :=
  fun a => if (a - base).toNat < n then value else memory a

variable {base a : BitVec w} {n k : Nat}

@[simp] theorem mem_byteRange :
    a ∈ byteRange base n ↔ (a - base).toNat < n := Iff.rfl

theorem distance_add :
    (a - base).toNat < k + n ↔
      (a - base).toNat < k ∨ (a - (base + BitVec.ofNat w k)).toNat < n := by
  have bound := (a - base).isLt
  rw [← BitVec.sub_sub]
  generalize a - base = d at bound ⊢
  by_cases near : d.toNat < k
  · simp only [near, true_or, iff_true]
    omega
  · by_cases whole : k < 2 ^ w
    · have toNat : (BitVec.ofNat w k).toNat = k := by
        rw [BitVec.toNat_ofNat, Nat.mod_eq_of_lt whole]
      have le : BitVec.ofNat w k ≤ d := by
        rw [BitVec.le_def, toNat]
        omega
      rw [BitVec.toNat_sub_of_le le, toNat]
      omega
    · omega

theorem byteRange_add :
    byteRange base (k + n) = byteRange base k ∪ byteRange (base + BitVec.ofNat w k) n := by
  ext a
  exact distance_add

@[simp] theorem byteRange_zero (base : BitVec w) : byteRange base 0 = ∅ := by
  ext a
  simp

theorem fill_add (memory : BitVec w → β) (value : β) :
    fill (fill memory base k value) (base + BitVec.ofNat w k) n value =
      fill memory base (k + n) value := by
  funext a
  have apart : (a - base).toNat < k + n ↔ _ := distance_add
  unfold fill
  by_cases far : (a - (base + BitVec.ofNat w k)).toNat < n
  · rw [if_pos far, if_pos (apart.mpr (.inr far))]
  · rw [if_neg far]
    by_cases near : (a - base).toNat < k
    · rw [if_pos near, if_pos (apart.mpr (.inl near))]
    · rw [if_neg near, if_neg fun inside => (apart.mp inside).elim near far]

@[simp] theorem fill_zero (memory : BitVec w → β) (base : BitVec w) (value : β) :
    fill memory base 0 value = memory := by
  funext a
  simp [fill]

/-- The address at a distance. -/
theorem add_mem_byteRange (bound : k < 2 ^ w) :
    base + BitVec.ofNat w k ∈ byteRange base n ↔ k < n := by
  rw [mem_byteRange, BitVec.add_comm, BitVec.add_sub_cancel, BitVec.toNat_ofNat,
    Nat.mod_eq_of_lt bound]

end AnonCompiler.Lib
