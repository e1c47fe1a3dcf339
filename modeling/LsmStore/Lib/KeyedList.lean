import Mathlib.Data.List.Nodup
import Mathlib.Tactic

/-!
# Lists whose elements are told apart by a key

Elements are removed from a list by a key that occurs at most once in it.
Erasing the first element with the key then removes exactly that element, and
an element that is inserted in front of the first one with a larger key stands
where its key belongs.  The last lemma says what a list holds after one of its
places was overwritten.
-/

namespace LsmStore
namespace KeyedList

universe u v

variable {α : Type u} {β : Type v}

/-- Erasing by the key of an element leaves exactly the other elements. -/
theorem mem_eraseP_key
    [DecidableEq β]
    {key : α → β} {l : List α}
    (h : (l.map key).Nodup)
    {a : α}
    (ha : a ∈ l)
    (b : α) :
    b ∈ l.eraseP (fun x => key x == key a) ↔ b ∈ l ∧ b ≠ a := by
  induction l with
  | nil =>
      cases ha
  | cons x l ih =>
      obtain ⟨hx, hl⟩ := List.nodup_cons.mp h
      have hfresh : ∀ y ∈ l, key y ≠ key x := by
        intro y hy heq
        exact hx (heq ▸ List.mem_map_of_mem hy)
      by_cases hkey : key x = key a
      · have hxa : x = a := List.inj_on_of_nodup_map h List.mem_cons_self ha hkey
        subst hxa
        rw [List.eraseP_cons_of_pos (by simp)]
        constructor
        · intro hb
          exact ⟨List.mem_cons_of_mem _ hb, fun heq => hfresh b hb (by rw [heq])⟩
        · rintro ⟨hb, hne⟩
          exact (List.mem_cons.mp hb).resolve_left hne
      · have hal : a ∈ l := by
          rcases List.mem_cons.mp ha with rfl | ha
          · exact absurd rfl hkey
          · exact ha
        rw [List.eraseP_cons_of_neg (by simpa using hkey), List.mem_cons, List.mem_cons,
          ih hl hal]
        constructor
        · rintro (rfl | ⟨hb, hne⟩)
          · exact ⟨Or.inl rfl, fun heq => hkey (by rw [heq])⟩
          · exact ⟨Or.inr hb, hne⟩
        · rintro ⟨hb | hb, hne⟩
          · exact Or.inl hb
          · exact Or.inr ⟨hb, hne⟩

/-- Insertion in front of the first element with a larger key keeps the keys increasing. -/
theorem pairwise_insertIdx_findIdx
    [LinearOrder β]
    {key : α → β} {l : List α} {a : α}
    (h : l.Pairwise fun x y => key x < key y)
    (hne : ∀ x ∈ l, key x ≠ key a) :
    (l.insertIdx (l.findIdx fun x => decide (key a < key x)) a).Pairwise
      fun x y => key x < key y := by
  induction l with
  | nil =>
      exact List.pairwise_singleton _ a
  | cons x l ih =>
      obtain ⟨hx, hl⟩ := List.pairwise_cons.mp h
      by_cases hlt : key a < key x
      · rw [List.findIdx_cons, decide_eq_true hlt]
        refine List.pairwise_cons.mpr ⟨?_, h⟩
        intro y hy
        rcases List.mem_cons.mp hy with rfl | hy
        · exact hlt
        · exact lt_trans hlt (hx y hy)
      · rw [List.findIdx_cons, decide_eq_false hlt]
        refine List.pairwise_cons.mpr ⟨?_, ih hl fun y hy => hne y (List.mem_cons_of_mem _ hy)⟩
        intro y hy
        rcases List.mem_insertIdx List.findIdx_le_length |>.mp hy with rfl | hy
        · exact lt_of_le_of_ne (not_lt.mp hlt) (hne x List.mem_cons_self)
        · exact hx y hy

/-- Where an element of an overwritten list comes from. -/
theorem getElem?_set_cases
    {l : List α} {i j : Nat} {a b : α}
    (h : (l.set i a)[j]? = some b) :
    (j = i ∧ b = a) ∨ (j ≠ i ∧ l[j]? = some b) := by
  by_cases hji : j = i
  · subst hji
    have hlt : j < (l.set j a).length := (List.getElem?_eq_some_iff.mp h).1
    rw [List.length_set] at hlt
    rw [List.getElem?_set_self hlt] at h
    exact Or.inl ⟨rfl, (Option.some.inj h).symm⟩
  · rw [List.getElem?_set_ne (Ne.symm hji)] at h
    exact Or.inr ⟨hji, h⟩

end KeyedList
end LsmStore
