import Mathlib.Data.List.Basic
import Mathlib.Tactic

/-!
# A list in consecutive segments

A list is cut at offsets that do not decrease: segment `i` begins at offset `i`
and ends where the next one begins, the last one at the end of the list.
Segments are added at the end, and an element of a segment can be replaced
without touching the others.
-/

namespace LsmStore
namespace Segments

universe u

variable {α : Type u}

/-- The offsets cut a list of the given length. -/
structure Cuts (offsets : List Nat) (length : Nat) : Prop where
  monotone : offsets.Pairwise (· ≤ ·)
  le_length : ∀ offset ∈ offsets, offset ≤ length

/-- Where segment `i` of a list ends. -/
def segmentEnd (offsets : List Nat) (length i : Nat) : Nat :=
  offsets[i + 1]?.getD length

def segmentAt (offsets : List Nat) (l : List α) (i : Nat) : Option (List α) :=
  offsets[i]?.map fun start => (l.drop start).take (segmentEnd offsets l.length i - start)

section Lemmas

variable {offsets : List Nat} {l : List α}

theorem Cuts.getElem?_le
    {length i start : Nat}
    (h : Cuts offsets length)
    (hi : offsets[i]? = some start) :
    start ≤ length :=
  h.le_length start (List.mem_of_getElem? hi)

/-- Earlier segments end before later ones begin. -/
theorem Cuts.segmentEnd_le
    {length i j start : Nat}
    (h : Cuts offsets length)
    (hij : i < j)
    (hj : offsets[j]? = some start) :
    segmentEnd offsets length i ≤ start := by
  have hlt := (List.getElem?_eq_some_iff.mp hj).1
  have hnext : offsets[i + 1]? = some offsets[i + 1] := List.getElem?_eq_getElem (by omega)
  rw [segmentEnd, hnext, Option.getD_some]
  rcases Nat.eq_or_lt_of_le (Nat.succ_le_of_lt hij) with heq | hlt'
  · subst heq
    exact le_of_eq (Option.some.inj (hnext.symm.trans hj))
  · rw [← (List.getElem?_eq_some_iff.mp hj).2]
    exact List.pairwise_iff_getElem.mp h.monotone _ _ _ _ hlt'

theorem Cuts.concat
    {length : Nat}
    (h : Cuts offsets length)
    (n : Nat) :
    Cuts (offsets ++ [length]) (length + n) where
  monotone := by
    rw [List.pairwise_append]
    refine ⟨h.monotone, List.pairwise_singleton _ _, ?_⟩
    intro a ha b hb
    rw [List.mem_singleton.mp hb]
    exact h.le_length a ha
  le_length := by
    intro offset hoffset
    rcases List.mem_append.mp hoffset with hold | hnew
    · exact (h.le_length offset hold).trans (Nat.le_add_right _ _)
    · rw [List.mem_singleton.mp hnew]
      exact Nat.le_add_right _ _

theorem segmentAt_eq_none
    {i : Nat}
    (hi : offsets.length ≤ i) :
    segmentAt offsets l i = none := by
  rw [segmentAt, List.getElem?_eq_none hi]
  rfl

/-- A new segment leaves the others as they are. -/
theorem segmentAt_concat
    (h : Cuts offsets l.length)
    (m : List α) (i : Nat) :
    segmentAt (offsets ++ [l.length]) (l ++ m) i =
      if i = offsets.length then some m else segmentAt offsets l i := by
  rcases Nat.lt_trichotomy i offsets.length with hlt | heq | hgt
  · rw [if_neg (Nat.ne_of_lt hlt)]
    obtain ⟨start, hstart⟩ : ∃ start, offsets[i]? = some start :=
      ⟨_, List.getElem?_eq_getElem hlt⟩
    have hle := h.getElem?_le hstart
    have hend : segmentEnd (offsets ++ [l.length]) (l ++ m).length i =
        segmentEnd offsets l.length i := by
      unfold segmentEnd
      rcases Nat.lt_or_ge (i + 1) offsets.length with hnext | hlast
      · rw [List.getElem?_append_left hnext, List.getElem?_eq_getElem hnext]
        rfl
      · rw [List.getElem?_append_right hlast, List.getElem?_eq_none hlast,
          show i + 1 - offsets.length = 0 by omega]
        rfl
    have hend_le : segmentEnd offsets l.length i ≤ l.length := by
      unfold segmentEnd
      cases hnext : offsets[i + 1]? with
      | none =>
          exact le_refl _
      | some next =>
          exact h.getElem?_le hnext
    rw [segmentAt, segmentAt, List.getElem?_append_left hlt, hstart, hend, Option.map_some,
      Option.map_some, List.drop_append_of_le_length hle,
      List.take_append_of_le_length (by rw [List.length_drop]; omega)]
  · subst heq
    rw [if_pos rfl, segmentAt, segmentEnd, List.getElem?_append_right (le_refl _), Nat.sub_self,
      List.getElem?_eq_none (by simp)]
    simp
  · rw [if_neg (Nat.ne_of_gt hgt), segmentAt_eq_none (by simp; omega),
      segmentAt_eq_none (by omega)]

theorem segmentAt_set
    {i r start : Nat} {seg : List α}
    (h : Cuts offsets l.length)
    (hstart : offsets[i]? = some start)
    (hseg : segmentAt offsets l i = some seg)
    (hr : r < seg.length)
    (x : α) (j : Nat) :
    segmentAt offsets (l.set (start + r) x) j =
      if j = i then some (seg.set r x) else segmentAt offsets l j := by
  have hcut : seg = (l.drop start).take (segmentEnd offsets l.length i - start) := by
    rw [segmentAt, hstart] at hseg
    exact (Option.some.inj hseg).symm
  have hlt : start + r < segmentEnd offsets l.length i := by
    rw [hcut, List.length_take] at hr
    omega
  by_cases hji : j = i
  · subst hji
    rw [if_pos rfl, segmentAt, hstart, List.length_set, Option.map_some, hcut, List.drop_set,
      if_neg (by omega), Nat.add_sub_cancel_left, List.take_set]
  · rw [if_neg hji]
    cases hj : offsets[j]? with
    | none =>
        rw [segmentAt, segmentAt, hj]
        rfl
    | some start' =>
        rw [segmentAt, segmentAt, hj, List.length_set, Option.map_some, Option.map_some,
          Option.some.injEq]
        apply List.ext_getElem?
        intro k
        rw [List.getElem?_take, List.getElem?_take, List.getElem?_drop, List.getElem?_drop]
        split_ifs with hk
        · -- the replaced element lies in another segment
          refine List.getElem?_set_ne ?_
          rcases Nat.lt_or_gt_of_ne hji with hbefore | hafter
          · have := h.segmentEnd_le hbefore hstart
            omega
          · have := h.segmentEnd_le hafter hj
            omega
        · rfl

end Lemmas

end Segments
end LsmStore
