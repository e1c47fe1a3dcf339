import Mathlib.Order.Lattice
import Mathlib.Tactic

/-!
# Closed ranges of a linear order

A range is given by its two inclusive ends.  Widening a range by another one
that overlaps it covers exactly the union of the two, which is why a range
that overlaps neither of them does not overlap the widened range either.
-/

namespace LsmStore
namespace KeyRange

universe u

variable {K : Type u} [LinearOrder K]

/-- The ranges `[a, b]` and `[c, d]` have a point in common. -/
def Overlaps (a b c d : K) : Prop :=
  c ≤ b ∧ a ≤ d

instance (a b c d : K) : Decidable (Overlaps a b c d) :=
  inferInstanceAs (Decidable (_ ∧ _))

theorem Overlaps.symm
    {a b c d : K}
    (h : Overlaps a b c d) :
    Overlaps c d a b :=
  ⟨h.2, h.1⟩

/-- A common point makes two ranges overlap. -/
theorem overlaps_of_mem
    {a b c d x : K}
    (hab : a ≤ x ∧ x ≤ b)
    (hcd : c ≤ x ∧ x ≤ d) :
    Overlaps a b c d :=
  ⟨le_trans hcd.1 hab.2, le_trans hab.1 hcd.2⟩

/-- A range that overlaps a part of another range overlaps all of it. -/
theorem Overlaps.mono
    {a b c d c' d' : K}
    (h : Overlaps a b c d)
    (hc : c' ≤ c) (hd : d ≤ d') :
    Overlaps a b c' d' :=
  ⟨le_trans hc h.1, le_trans h.2 hd⟩

/-- Widening by an overlapping range reaches nothing that neither range reaches. -/
theorem not_overlaps_widen
    {a b c d m n : K}
    (hab : a ≤ b)
    (hcd : Overlaps c d m n)
    (h₁ : ¬ Overlaps a b m n)
    (h₂ : ¬ Overlaps a b c d) :
    ¬ Overlaps a b (min m c) (max n d) := by
  rintro ⟨hle, hge⟩
  simp only [Overlaps, not_and_or, not_le] at h₁ h₂
  rw [min_le_iff] at hle
  rw [le_max_iff] at hge
  obtain ⟨hmd, hcn⟩ := hcd
  rcases h₁ with h₁ | h₁ <;> rcases h₂ with h₂ | h₂
  · rcases hle with hle | hle
    · exact absurd hle (not_le.mpr h₁)
    · exact absurd hle (not_le.mpr h₂)
  · -- the range would lie below the first and above the second, which overlap
    exact absurd (lt_of_lt_of_le (lt_of_le_of_lt hab h₁) hmd) (not_lt.mpr (le_of_lt h₂))
  · exact absurd (lt_of_lt_of_le h₁ hab) (not_lt.mpr (le_trans (le_of_lt h₂) hcn))
  · rcases hge with hge | hge
    · exact absurd hge (not_le.mpr h₁)
    · exact absurd hge (not_le.mpr h₂)

end KeyRange
end LsmStore
