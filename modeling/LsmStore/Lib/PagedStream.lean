import Mathlib.Data.List.Basic
import Mathlib.Tactic

/-!
# Streams split into fixed-size pages

A stream of symbols is stored as numbered pages of `P` symbols each.  Page `i`
holds the symbols at the positions `i * P` up to `(i + 1) * P`.  The page in
which the stream ends exists even when it is still empty, so a stream whose
length is a multiple of `P` has one empty page behind its last full one.

The lemmas say what one page holds, how the pages change when a chunk that
fits the last page is appended, and how a reader finds the stream again.
-/

namespace LsmStore
namespace PagedStream

universe u

variable {α : Type u}

/-- Page `i` of the stream, if the stream reaches that far. -/
def page (P : Nat) (s : List α) (i : Nat) : Option (List α) :=
  if i * P ≤ s.length then some ((s.drop (i * P)).take P) else none

section Reading

variable {P : Nat} {s : List α}

theorem page_of_le
    {i : Nat}
    (hi : i * P ≤ s.length) :
    page P s i = some ((s.drop (i * P)).take P) := by
  simp [page, hi]

theorem page_of_lt
    {i : Nat}
    (hi : s.length < i * P) :
    page P s i = none := by
  simp [page, Nat.not_le.mpr hi]

theorem page_length
    {i : Nat} {c : List α}
    (hc : page P s i = some c) :
    c.length = min P (s.length - i * P) := by
  unfold page at hc
  split_ifs at hc with hi
  cases hc
  simp

/-- The page that holds position `p`, seen from the offset of `p` in it. -/
theorem page_drop_offset
    {p : Nat} {c : List α}
    (hc : page P s (p / P) = some c) :
    c.drop (p % P) = (s.drop p).take (P - p % P) := by
  unfold page at hc
  split_ifs at hc with hi
  cases hc
  have hp : p / P * P + p % P = p := Nat.div_add_mod' p P
  rw [List.drop_take, List.drop_drop, hp]

/-- Every position up to the end of the stream lies in a page that exists. -/
theorem exists_page_of_le
    {p : Nat}
    (hp : p ≤ s.length) :
    ∃ c, page P s (p / P) = some c := by
  have hi : p / P * P ≤ s.length := le_trans (Nat.div_mul_le_self p P) hp
  exact ⟨_, page_of_le hi⟩

/-- What is left of the page behind position `p`. -/
theorem page_remaining
    (hP : 0 < P)
    {p : Nat} {c : List α}
    (hp : p ≤ s.length)
    (hc : page P s (p / P) = some c) :
    p % P ≤ c.length ∧
      c.length - p % P = min (P - p % P) (s.length - p) := by
  have hlen := page_length hc
  have hdm : p / P * P + p % P = p := Nat.div_add_mod' p P
  have hmod : p % P < P := Nat.mod_lt p hP
  omega

end Reading

section Appending

variable {P : Nat}

/-- The page in which the stream ends holds everything behind the last page boundary. -/
theorem page_last
    (hP : 0 < P)
    (s : List α) :
    page P s (s.length / P) = some (s.drop (s.length / P * P)) := by
  have hle : s.length / P * P ≤ s.length := Nat.div_mul_le_self _ _
  have hdm : s.length / P * P + s.length % P = s.length := Nat.div_add_mod' _ _
  have hmod : s.length % P < P := Nat.mod_lt _ hP
  rw [page_of_le hle, List.take_of_length_le]
  rw [List.length_drop]
  omega

theorem page_last_length
    (s : List α) :
    (s.drop (s.length / P * P)).length = s.length % P := by
  have hdm : s.length / P * P + s.length % P = s.length := Nat.div_add_mod' _ _
  rw [List.length_drop]
  omega

/-- Pages in front of the last one do not see an appended chunk. -/
theorem page_append_of_lt
    (s t : List α)
    {i : Nat}
    (hi : i < s.length / P) :
    page P (s ++ t) i = page P s i := by
  have hnext : (i + 1) * P ≤ s.length := by
    calc (i + 1) * P ≤ s.length / P * P := Nat.mul_le_mul_right P hi
      _ ≤ s.length := Nat.div_mul_le_self _ _
  have hsplit : (i + 1) * P = i * P + P := by ring
  have hle : i * P ≤ s.length := by omega
  have hle' : i * P ≤ (s ++ t).length := by
    rw [List.length_append]
    omega
  rw [page_of_le hle, page_of_le hle', List.drop_append_of_le_length hle,
    List.take_append_of_le_length]
  rw [List.length_drop]
  omega

/-- A chunk that fits the last page is appended to that page. -/
theorem page_append_last
    (s t : List α)
    (hfit : s.length % P + t.length ≤ P) :
    page P (s ++ t) (s.length / P) =
      some (s.drop (s.length / P * P) ++ t) := by
  have hle : s.length / P * P ≤ s.length := Nat.div_mul_le_self _ _
  have hle' : s.length / P * P ≤ (s ++ t).length := by
    rw [List.length_append]
    omega
  rw [page_of_le hle', List.drop_append_of_le_length hle, List.take_of_length_le]
  rw [List.length_append, page_last_length]
  exact hfit

/-- Filling the last page creates an empty page behind it. -/
theorem page_append_next_of_full
    (s t : List α)
    (hfull : s.length % P + t.length = P) :
    page P (s ++ t) (s.length / P + 1) = some [] := by
  have hdm : s.length / P * P + s.length % P = s.length := Nat.div_add_mod' _ _
  have hsplit : (s.length / P + 1) * P = s.length / P * P + P := by ring
  have hlen : (s ++ t).length = (s.length / P + 1) * P := by
    rw [List.length_append]
    omega
  rw [page_of_le (le_of_eq hlen.symm), ← hlen, List.drop_length, List.take_nil]

theorem page_beyond
    (hP : 0 < P)
    (s : List α)
    {i : Nat}
    (hi : s.length / P < i) :
    page P s i = none :=
  page_of_lt ((Nat.div_lt_iff_lt_mul hP).mp hi)

/-- Pages after a chunk that leaves room in the last page. -/
theorem page_append_of_room
    (hP : 0 < P)
    (s t : List α) (i : Nat)
    (hroom : s.length % P + t.length < P) :
    page P (s ++ t) i =
      if i = s.length / P then some (s.drop (s.length / P * P) ++ t)
      else page P s i := by
  have hdm : s.length / P * P + s.length % P = s.length := Nat.div_add_mod' _ _
  have hdiv : (s ++ t).length / P = s.length / P := by
    rw [List.length_append, Nat.div_eq_iff hP]
    omega
  rcases lt_trichotomy i (s.length / P) with hi | hi | hi
  · rw [if_neg (ne_of_lt hi), page_append_of_lt s t hi]
  · subst hi
    rw [if_pos rfl, page_append_last s t (le_of_lt hroom)]
  · rw [if_neg (ne_of_gt hi), page_beyond hP _ (by rw [hdiv]; exact hi),
      page_beyond hP s hi]

/-- Pages after a chunk that fills the last page. -/
theorem page_append_of_full
    (hP : 0 < P)
    (s t : List α) (i : Nat)
    (hfull : s.length % P + t.length = P) :
    page P (s ++ t) i =
      if i = s.length / P + 1 then some []
      else if i = s.length / P then some (s.drop (s.length / P * P) ++ t)
      else page P s i := by
  have hdm : s.length / P * P + s.length % P = s.length := Nat.div_add_mod' _ _
  have hlen : (s ++ t).length = P * (s.length / P + 1) := by
    rw [List.length_append, Nat.mul_add, Nat.mul_comm]
    omega
  have hdiv : (s ++ t).length / P = s.length / P + 1 := by
    rw [hlen, Nat.mul_div_cancel_left _ hP]
  by_cases hnext : i = s.length / P + 1
  · subst hnext
    rw [if_pos rfl, page_append_next_of_full s t hfull]
  rw [if_neg hnext]
  rcases lt_trichotomy i (s.length / P) with hi | hi | hi
  · rw [if_neg (ne_of_lt hi), page_append_of_lt s t hi]
  · subst hi
    rw [if_pos rfl, page_append_last s t (le_of_eq hfull)]
  · rw [if_neg (ne_of_gt hi), page_beyond hP _ (by rw [hdiv]; omega),
      page_beyond hP s hi]

end Appending

end PagedStream
end LsmStore
