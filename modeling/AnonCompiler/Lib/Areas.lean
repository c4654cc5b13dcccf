import Mathlib.Data.List.Pairwise
import Mathlib.Data.List.Perm.Basic

/-!
# Areas of memory

An area is a row of bytes.  Areas are packed between two bounds when each of them lies
between the bounds and no two of them have a byte in common; packed areas above each other
are packed together.
-/

set_option autoImplicit false

namespace AnonCompiler.Lib

/-- `size` bytes from `start` on. -/
structure Area where
  start : Nat
  size : Nat
deriving DecidableEq, Repr

namespace Area

variable {a b : Area} {areas above below : List Area} {low middle high : Nat}

def stop (a : Area) : Nat := a.start + a.size

/-- One area ends before the other begins. -/
def Apart (a b : Area) : Prop := a.stop ≤ b.start ∨ b.stop ≤ a.start

def Inside (low high : Nat) (a : Area) : Prop := low ≤ a.start ∧ a.stop ≤ high

/-- The areas lie between the bounds, each for itself. -/
structure Packed (low high : Nat) (areas : List Area) : Prop where
  apart : areas.Pairwise Apart
  inside : ∀ a ∈ areas, a.Inside low high

theorem Apart.symm (apart : a.Apart b) : b.Apart a := Or.symm apart

/-- What ends below a place lies apart from what begins there. -/
theorem Inside.apart (first : a.Inside low middle) (second : b.Inside middle high) : a.Apart b :=
  .inl (Nat.le_trans first.2 second.1)

theorem Inside.mono {low' high' : Nat} (inside : a.Inside low high) (lower : low' ≤ low)
    (higher : high ≤ high') : a.Inside low' high' :=
  ⟨Nat.le_trans lower inside.1, Nat.le_trans inside.2 higher⟩

namespace Packed

theorem nil : Packed low high [] := ⟨.nil, fun _ member => absurd member List.not_mem_nil⟩

theorem single (inside : a.Inside low high) : Packed low high [a] :=
  ⟨List.pairwise_singleton _ _, fun _ member => List.mem_singleton.mp member ▸ inside⟩

theorem mono {low' high' : Nat} (packed : Packed low high areas) (lower : low' ≤ low)
    (higher : high ≤ high') : Packed low' high' areas :=
  ⟨packed.apart, fun a member => (packed.inside a member).mono lower higher⟩

/-- Areas that are moved by the same distance. -/
theorem shift (distance : Nat) (packed : Packed low high areas) :
    Packed (distance + low) (distance + high)
      (areas.map fun a => ⟨distance + a.start, a.size⟩) := by
  refine ⟨List.pairwise_map.mpr (packed.apart.imp fun {a b} apart => ?_), fun a member => ?_⟩
  · unfold Apart stop at *
    dsimp only
    omega
  · obtain ⟨b, isArea, rfl⟩ := List.mem_map.mp member
    have inside := packed.inside b isArea
    unfold Inside stop at *
    dsimp only
    omega

theorem perm {areas' : List Area} (packed : Packed low high areas) (same : areas.Perm areas') :
    Packed low high areas' :=
  ⟨(same.pairwise_iff fun apart => Apart.symm apart).mp packed.apart,
    fun a member => packed.inside a (same.mem_iff.mpr member)⟩

/-- Packed areas above packed areas. -/
theorem append (lower : Packed low middle below) (upper : Packed middle high above)
    (first : low ≤ middle) (second : middle ≤ high) : Packed low high (below ++ above) := by
  refine ⟨List.pairwise_append.mpr ⟨lower.apart, upper.apart, fun a isLow b isHigh => ?_⟩,
    fun a member => ?_⟩
  · exact (lower.inside a isLow).apart (upper.inside b isHigh)
  · rcases List.mem_append.mp member with isLow | isHigh
    · exact (lower.inside a isLow).mono (Nat.le_refl _) second
    · exact (upper.inside a isHigh).mono first (Nat.le_refl _)

/-- A list of areas that goes down. -/
theorem cons_above (inside : a.Inside middle high) (lower : Packed low middle below)
    (first : low ≤ middle) (second : middle ≤ high) : Packed low high (a :: below) :=
  (lower.append (.single inside) first second).perm (List.perm_append_singleton _ _)

end Packed

end Area

end AnonCompiler.Lib
