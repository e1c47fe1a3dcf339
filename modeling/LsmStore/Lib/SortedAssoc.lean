import Mathlib.Data.List.Basic
import Mathlib.Order.Basic
import Mathlib.Tactic

/-!
# Association lists with strictly increasing keys

The finite maps of this development are vectors of key-value pairs kept in
strictly increasing key order.  `position` is the result of a binary search in
such a vector: the index of the key, or the index at which it has to be
inserted.  Both outcomes cut the vector into the part below the key and the
part above it, and every fact about lookups and updates follows from that cut.
-/

namespace LsmStore
namespace SortedAssoc

universe u v w

variable {K : Type u} {V : Type v} {W : Type w} [LinearOrder K]

/-- Keys are strictly increasing. -/
def Sorted (l : List (K × V)) : Prop :=
  l.Pairwise (fun a b => a.1 < b.1)

/-- The value stored under a key. -/
def lookup : List (K × V) → K → Option V
  | [], _ => none
  | (k, v) :: rest, key => if k = key then some v else lookup rest key

/-- Binary search: `ok` with the index of the key, or `error` with its insertion index. -/
def position : List (K × V) → K → Except Nat Nat
  | [], _ => .error 0
  | (k, _) :: rest, key =>
      if k < key then
        match position rest key with
        | .ok pos => .ok (pos + 1)
        | .error pos => .error (pos + 1)
      else if k = key then .ok 0
      else .error 0

theorem Sorted.tail
    {a : K × V} {l : List (K × V)}
    (h : Sorted (a :: l)) :
    Sorted l :=
  (List.pairwise_cons.mp h).2

theorem Sorted.head_lt
    {a : K × V} {l : List (K × V)}
    (h : Sorted (a :: l))
    {b : K × V}
    (hb : b ∈ l) :
    a.1 < b.1 :=
  (List.pairwise_cons.mp h).1 b hb

/-- A hit cuts the list around the entry that was found. -/
theorem position_ok
    {l : List (K × V)} {key : K} {pos : Nat}
    (h : Sorted l)
    (hpos : position l key = .ok pos) :
    ∃ pre v post,
      l = pre ++ (key, v) :: post ∧ pre.length = pos ∧
      (∀ a ∈ pre, a.1 < key) ∧ (∀ a ∈ post, key < a.1) := by
  induction l generalizing pos with
  | nil =>
      simp [position] at hpos
  | cons a rest ih =>
      obtain ⟨k, v⟩ := a
      unfold position at hpos
      split_ifs at hpos with hlt heq
      · cases hrest : position rest key with
        | error pos' =>
            simp [hrest] at hpos
        | ok pos' =>
            simp only [hrest, Except.ok.injEq] at hpos
            subst hpos
            obtain ⟨pre, w, post, hl, hlen, hpre, hpost⟩ := ih h.tail hrest
            refine ⟨(k, v) :: pre, w, post, by simp [hl], by simp [hlen], ?_, hpost⟩
            intro b hb
            rcases List.mem_cons.mp hb with rfl | hb
            · exact hlt
            · exact hpre b hb
      · cases hpos
        subst heq
        exact ⟨[], v, rest, rfl, rfl, by simp, fun b hb => h.head_lt hb⟩

/-- A miss cuts the list at the insertion index. -/
theorem position_error
    {l : List (K × V)} {key : K} {pos : Nat}
    (h : Sorted l)
    (hpos : position l key = .error pos) :
    ∃ pre post,
      l = pre ++ post ∧ pre.length = pos ∧
      (∀ a ∈ pre, a.1 < key) ∧ (∀ a ∈ post, key < a.1) := by
  induction l generalizing pos with
  | nil =>
      simp only [position, Except.error.injEq] at hpos
      exact ⟨[], [], rfl, hpos, by simp, by simp⟩
  | cons a rest ih =>
      obtain ⟨k, v⟩ := a
      unfold position at hpos
      split_ifs at hpos with hlt heq
      · cases hrest : position rest key with
        | ok pos' =>
            simp [hrest] at hpos
        | error pos' =>
            simp only [hrest, Except.error.injEq] at hpos
            subst hpos
            obtain ⟨pre, post, hl, hlen, hpre, hpost⟩ := ih h.tail hrest
            refine ⟨(k, v) :: pre, post, by simp [hl], by simp [hlen], ?_, hpost⟩
            intro b hb
            rcases List.mem_cons.mp hb with rfl | hb
            · exact hlt
            · exact hpre b hb
      · cases hpos
        have hgt : key < k := lt_of_le_of_ne (not_lt.mp hlt) (Ne.symm heq)
        refine ⟨[], (k, v) :: rest, rfl, rfl, by simp, ?_⟩
        intro b hb
        rcases List.mem_cons.mp hb with rfl | hb
        · exact hgt
        · exact lt_trans hgt (h.head_lt hb)

theorem position_getElem?
    {l : List (K × V)} {key : K} {v : V} {pos : Nat}
    (h : Sorted l)
    (hpos : l[pos]? = some (key, v)) :
    position l key = .ok pos := by
  induction l generalizing pos with
  | nil =>
      cases hpos
  | cons a rest ih =>
      obtain ⟨k, w⟩ := a
      cases pos with
      | zero =>
          cases hpos
          simp [position]
      | succ pos =>
          rw [List.getElem?_cons_succ] at hpos
          have hlt : k < key := h.head_lt (List.mem_of_getElem? hpos)
          rw [position, if_pos hlt, ih h.tail hpos]

/-- The search looks at the keys only. -/
theorem position_congr
    {l : List (K × V)} {l' : List (K × W)}
    (h : l.map Prod.fst = l'.map Prod.fst)
    (key : K) :
    position l key = position l' key := by
  induction l generalizing l' with
  | nil =>
      cases l' with
      | nil =>
          rfl
      | cons b rest' =>
          cases h
  | cons a rest ih =>
      cases l' with
      | nil =>
          cases h
      | cons b rest' =>
          obtain ⟨k, v⟩ := a
          obtain ⟨k', v'⟩ := b
          rw [List.map_cons, List.map_cons, List.cons.injEq] at h
          obtain ⟨hk, hrest⟩ := h
          dsimp only at hk
          subst hk
          rw [position, position, ih hrest]

theorem head_le_of_mem
    {l : List (K × V)}
    (h : Sorted l)
    (hne : l ≠ [])
    {a : K × V}
    (ha : a ∈ l) :
    (l.head hne).1 ≤ a.1 := by
  cases l with
  | nil =>
      exact absurd rfl hne
  | cons b l =>
      rcases List.mem_cons.mp ha with rfl | ha
      · exact le_refl _
      · exact le_of_lt (h.head_lt ha)

theorem le_getLast_of_mem
    {l : List (K × V)}
    (h : Sorted l)
    (hne : l ≠ [])
    {a : K × V}
    (ha : a ∈ l) :
    a.1 ≤ (l.getLast hne).1 := by
  induction l generalizing a with
  | nil =>
      exact absurd rfl hne
  | cons b l ih =>
      cases l with
      | nil =>
          rw [List.mem_singleton.mp ha]
          exact le_refl _
      | cons c l =>
          rw [List.getLast_cons (by simp)]
          rcases List.mem_cons.mp ha with rfl | ha
          · exact le_of_lt (lt_of_lt_of_le (h.head_lt List.mem_cons_self)
              (ih h.tail (by simp) List.mem_cons_self))
          · exact ih h.tail (by simp) ha

theorem insertIdx_cut
    {α : Type v}
    (pre post : List α) (x : α) :
    (pre ++ post).insertIdx pre.length x = pre ++ x :: post := by
  induction pre with
  | nil =>
      simp
  | cons a pre ih =>
      simp [ih]

/-- An entry placed between the part below it and the part above it. -/
theorem sorted_cut
    {pre post : List (K × V)} {key : K}
    (v : V)
    (hsorted : Sorted (pre ++ post))
    (hpre : ∀ a ∈ pre, a.1 < key)
    (hpost : ∀ a ∈ post, key < a.1) :
    Sorted (pre ++ (key, v) :: post) := by
  unfold Sorted at *
  rw [List.pairwise_append] at hsorted ⊢
  obtain ⟨h1, h2, h3⟩ := hsorted
  refine ⟨h1, List.pairwise_cons.mpr ⟨hpost, h2⟩, ?_⟩
  intro a ha b hb
  rcases List.mem_cons.mp hb with rfl | hb
  · exact hpre a ha
  · exact h3 a ha b hb

theorem lookup_append
    (pre post : List (K × V)) (key : K) :
    lookup (pre ++ post) key = (lookup pre key).or (lookup post key) := by
  induction pre with
  | nil =>
      simp [lookup]
  | cons a pre ih =>
      obtain ⟨k, v⟩ := a
      by_cases hk : k = key
      · simp [lookup, hk]
      · simp [lookup, hk, ih]

/-- Nothing is found under a key that no entry carries. -/
theorem lookup_eq_none_iff
    (l : List (K × V)) (key : K) :
    lookup l key = none ↔ ∀ a ∈ l, a.1 ≠ key := by
  induction l with
  | nil =>
      simp [lookup]
  | cons a l ih =>
      obtain ⟨k, v⟩ := a
      by_cases hk : k = key
      · simp [lookup, hk]
      · simp [lookup, hk, ih]

theorem mem_of_lookup
    {l : List (K × V)} {key : K} {v : V}
    (h : lookup l key = some v) :
    (key, v) ∈ l := by
  induction l with
  | nil =>
      simp [lookup] at h
  | cons a l ih =>
      obtain ⟨k, w⟩ := a
      by_cases hk : k = key
      · subst hk
        simp only [lookup, if_true, Option.some.injEq] at h
        simp [h]
      · simp only [lookup, hk, if_false] at h
        exact List.mem_cons_of_mem _ (ih h)

theorem lookup_of_mem
    {l : List (K × V)} {key : K} {v : V}
    (hsorted : Sorted l)
    (h : (key, v) ∈ l) :
    lookup l key = some v := by
  induction l with
  | nil =>
      simp at h
  | cons a l ih =>
      obtain ⟨k, w⟩ := a
      rcases List.mem_cons.mp h with heq | htail
      · cases heq
        simp [lookup]
      · have hlt : k < key := hsorted.head_lt htail
        simp only [lookup, ne_of_lt hlt, if_false]
        exact ih hsorted.tail htail

theorem lookup_eq_some_iff
    {l : List (K × V)}
    (hsorted : Sorted l)
    (key : K) (v : V) :
    lookup l key = some v ↔ (key, v) ∈ l :=
  ⟨mem_of_lookup, lookup_of_mem hsorted⟩

/-- Lookup in a list that was cut at `key` and got a new entry there. -/
theorem lookup_cut
    {pre post : List (K × V)} {key : K}
    (v : V)
    (hpre : ∀ a ∈ pre, a.1 < key)
    (k : K) :
    lookup (pre ++ (key, v) :: post) k =
      if key = k then some v else lookup (pre ++ post) k := by
  rw [lookup_append, lookup_append]
  by_cases hk : key = k
  · subst hk
    have hnone : lookup pre key = none :=
      (lookup_eq_none_iff pre key).mpr (fun a ha => ne_of_lt (hpre a ha))
    simp [hnone, lookup]
  · simp [lookup, hk]

end SortedAssoc
end LsmStore
