import Mathlib.Order.Compare
import Mathlib.Tactic

/-!
# Binary search for a place between two others

The search keeps a window of places and halves it as long as there is one
strictly inside.  It ends at a place that compares equal, or with a window of
neighbours: everything up to its first place is too small, and everything from
its last place on too large, except for the ends the search began with.
-/

namespace LsmStore
namespace BinarySearch

/-- The end of a search. -/
inductive Found where
  | exact (place : Nat)
  | window (start stop : Nat)

/-- Halve the window; the fuel is the number of rounds. -/
def search (compare : Nat → Ordering) : Nat → Nat → Nat → Found
  | 0, start, stop => .window start stop
  | fuel + 1, start, stop =>
      if stop - start ≤ 1 then .window start stop
      else
        let mid := start + (stop - start) / 2
        match compare mid with
        | .eq => .exact mid
        | .lt => search compare fuel mid stop
        | .gt => search compare fuel start mid

/-- What the end of a search says. -/
def Correct (compare : Nat → Ordering) (start stop : Nat) : Found → Prop
  | .exact place => start < place ∧ place < stop ∧ compare place = .eq
  | .window a b => start ≤ a ∧ a ≤ b ∧ b ≤ stop ∧ b ≤ a + 1 ∧
      (a = start ∨ compare a = .lt) ∧ (b = stop ∨ compare b = .gt)

theorem search_correct
    (compare : Nat → Ordering)
    {fuel start stop : Nat}
    (hle : start ≤ stop)
    (hfuel : stop - start ≤ fuel + 1) :
    Correct compare start stop (search compare fuel start stop) := by
  induction fuel generalizing start stop with
  | zero =>
      exact ⟨le_refl _, hle, le_refl _, by omega, Or.inl rfl, Or.inl rfl⟩
  | succ fuel ih =>
      rw [search]
      split_ifs with hsmall
      · exact ⟨le_refl _, hle, le_refl _, by omega, Or.inl rfl, Or.inl rfl⟩
      · have hmid : start < start + (stop - start) / 2 ∧
            start + (stop - start) / 2 < stop := by omega
        generalize start + (stop - start) / 2 = mid at hmid
        dsimp only
        cases hcmp : compare mid with
        | eq =>
            exact ⟨hmid.1, hmid.2, hcmp⟩
        | lt =>
            have hright : Correct compare mid stop (search compare fuel mid stop) :=
              ih (by omega) (by omega)
            cases hfound : search compare fuel mid stop with
            | exact place =>
                rw [hfound] at hright
                exact ⟨by have := hright.1; omega, hright.2⟩
            | window a b =>
                rw [hfound] at hright
                obtain ⟨hstart, hab, hstop, hnext, hlo, hhi⟩ := hright
                refine ⟨by omega, hab, hstop, hnext, Or.inr ?_, hhi⟩
                rcases hlo with rfl | hlo
                · exact hcmp
                · exact hlo
        | gt =>
            have hleft : Correct compare start mid (search compare fuel start mid) :=
              ih (by omega) (by omega)
            cases hfound : search compare fuel start mid with
            | exact place =>
                rw [hfound] at hleft
                exact ⟨hleft.1, by have := hleft.2.1; omega, hleft.2.2⟩
            | window a b =>
                rw [hfound] at hleft
                obtain ⟨hstart, hab, hstop, hnext, hlo, hhi⟩ := hleft
                refine ⟨hstart, hab, by omega, hnext, hlo, Or.inr ?_⟩
                rcases hhi with rfl | hhi
                · exact hcmp
                · exact hhi

end BinarySearch
end LsmStore
