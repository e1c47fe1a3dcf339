import Mathlib.Data.List.Basic
import Mathlib.Tactic

/-!
# Chunks of different lengths, one behind the other

A buffer is made of chunks.  `offset` is where a chunk begins; the chunk before
it ends there.  Behind it are the chunks that arise when elements are collected
until there are enough of them, and at the end is what is needed to count groups
of equal size, the last one of which may not be full.
-/

namespace LsmStore
namespace Chunks

universe u

variable {α : Type u}

/-- Where chunk `i` begins. -/
def offset (chunks : List (List α)) (i : Nat) : Nat :=
  (chunks.take i).flatten.length

section Offset

variable {chunks : List (List α)} {chunk : List α} {i j : Nat}

@[simp] theorem offset_zero
    (chunks : List (List α)) :
    offset chunks 0 = 0 :=
  rfl

/-- The last chunk ends at the end of the buffer. -/
theorem offset_length
    (chunks : List (List α)) :
    offset chunks chunks.length = chunks.flatten.length := by
  rw [offset, List.take_length]

theorem offset_succ
    (h : chunks[i]? = some chunk) :
    offset chunks (i + 1) = offset chunks i + chunk.length := by
  rw [offset, offset, List.take_add_one, h, Option.toList_some, List.flatten_append,
    List.length_append, List.flatten_singleton]

theorem offset_append
    (h : i ≤ chunks.length)
    (more : List (List α)) :
    offset (chunks ++ more) i = offset chunks i := by
  rw [offset, offset, List.take_append_of_le_length h]

/-- What stands in front of a chunk, and what behind it. -/
theorem flatten_split
    (h : chunks[i]? = some chunk) :
    ∃ front back, chunks.flatten = front ++ (chunk ++ back) ∧ front.length = offset chunks i := by
  obtain ⟨hi, hget⟩ := List.getElem?_eq_some_iff.mp h
  refine ⟨(chunks.take i).flatten, (chunks.drop (i + 1)).flatten, ?_, rfl⟩
  conv_lhs => rw [← List.take_append_drop i chunks, List.drop_eq_getElem_cons hi, hget]
  rw [List.flatten_append, List.flatten_cons]

theorem offset_mono
    (h : i ≤ j) :
    offset chunks i ≤ offset chunks j := by
  obtain ⟨k, rfl⟩ := Nat.exists_eq_add_of_le h
  unfold offset
  rw [List.take_add, List.flatten_append, List.length_append]
  exact Nat.le_add_right _ _

theorem offset_le_length
    (chunks : List (List α)) (i : Nat) :
    offset chunks i ≤ chunks.flatten.length :=
  (List.take_sublist i chunks).flatten.length_le

/-- Chunks that are not empty begin at different places. -/
theorem offset_lt
    (hne : ∀ chunk ∈ chunks, chunk ≠ [])
    (hij : i < j)
    (hj : j ≤ chunks.length) :
    offset chunks i < offset chunks j := by
  have hget : chunks[i]? = some chunks[i] := List.getElem?_eq_getElem (by omega)
  have hpos := List.length_pos_iff.mpr (hne _ (List.mem_of_getElem? hget))
  calc offset chunks i < offset chunks i + chunks[i].length := Nat.lt_add_of_pos_right hpos
    _ = offset chunks (i + 1) := (offset_succ hget).symm
    _ ≤ offset chunks j := offset_mono hij

theorem le_offset
    (hne : ∀ chunk ∈ chunks, chunk ≠ [])
    (hi : i ≤ chunks.length) :
    i ≤ offset chunks i := by
  induction i with
  | zero =>
      exact Nat.zero_le _
  | succ i ih =>
      have hlt := offset_lt hne (Nat.lt_add_one i) hi
      have hle := ih (Nat.le_of_succ_le hi)
      omega

theorem offset_of_width
    {width : Nat}
    (hwidth : ∀ chunk ∈ chunks, chunk.length = width)
    (hi : i ≤ chunks.length) :
    offset chunks i = i * width := by
  induction i with
  | zero =>
      rw [offset_zero, Nat.zero_mul]
  | succ i ih =>
      have hget : chunks[i]? = some chunks[i] := List.getElem?_eq_getElem hi
      rw [offset_succ hget, ih (Nat.le_of_succ_le hi), hwidth _ (List.mem_of_getElem? hget),
        Nat.succ_mul]

/-- An element by its place in its chunk. -/
theorem getElem?_flatten
    (h : chunks[i]? = some chunk)
    (hj : j < chunk.length) :
    chunks.flatten[offset chunks i + j]? = chunk[j]? := by
  obtain ⟨front, back, hflatten, hfront⟩ := flatten_split h
  rw [hflatten, ← hfront, List.getElem?_append_right (Nat.le_add_right _ _),
    Nat.add_sub_cancel_left, List.getElem?_append_left hj]

end Offset

/-! ## Collecting elements -/

/-- One more element; a full chunk is put behind the others. -/
def fill (size : Nat) (s : List (List α) × List α) (a : α) : List (List α) × List α :=
  if size ≤ (s.2 ++ [a]).length then (s.1 ++ [s.2 ++ [a]], []) else (s.1, s.2 ++ [a])

/-- The last chunk may not be full, but it is not empty. -/
def close (s : List (List α) × List α) : List (List α) :=
  if s.2.length = 0 then s.1 else s.1 ++ [s.2]

/-- The chunks of a list. -/
def split (size : Nat) (l : List α) : List (List α) :=
  close (l.foldl (fill size) ([], []))

section Split

variable {size : Nat} {l : List α}

theorem flatten_fill
    (size : Nat) (l : List α) :
    (l.foldl (fill size) ([], [])).1.flatten ++ (l.foldl (fill size) ([], [])).2 = l := by
  induction l using List.reverseRecOn with
  | nil =>
      rfl
  | append_singleton l a ih =>
      rw [List.foldl_concat, fill]
      split_ifs
      · rw [List.flatten_append, List.flatten_singleton, List.append_nil, ← List.append_assoc, ih]
      · rw [← List.append_assoc, ih]

theorem fill_ne_nil
    {chunk : List α}
    (h : chunk ∈ (l.foldl (fill size) ([], [])).1) :
    chunk ≠ [] := by
  induction l using List.reverseRecOn with
  | nil =>
      exact absurd h List.not_mem_nil
  | append_singleton l a ih =>
      rw [List.foldl_concat, fill] at h
      split_ifs at h
      · rcases List.mem_append.mp h with hold | hnew
        · exact ih hold
        · rw [List.mem_singleton.mp hnew]
          exact List.append_ne_nil_of_right_ne_nil _ (List.cons_ne_nil a [])
      · exact ih h

/-- Nothing is lost. -/
theorem flatten_split_eq
    (size : Nat) (l : List α) :
    (split size l).flatten = l := by
  have hall := flatten_fill size l
  rw [split, close]
  split_ifs with hempty
  · rw [List.length_eq_zero_iff.mp hempty, List.append_nil] at hall
    exact hall
  · rw [List.flatten_append, List.flatten_singleton, hall]

theorem split_ne_nil
    {chunk : List α}
    (h : chunk ∈ split size l) :
    chunk ≠ [] := by
  rw [split, close] at h
  split_ifs at h with hempty
  · exact fill_ne_nil h
  · rcases List.mem_append.mp h with hold | hlast
    · exact fill_ne_nil hold
    · rw [List.mem_singleton.mp hlast]
      exact fun hnil => hempty (List.length_eq_zero_iff.mpr hnil)

end Split

/-- The number of groups: the full ones, and one more if something is left. -/
theorem groups_eq
    {size : Nat}
    (hpos : 0 < size)
    (count : Nat) :
    (count + size - 1) / size = count / size + if count % size = 0 then 0 else 1 := by
  have hdiv := Nat.div_add_mod count size
  have hlt := Nat.mod_lt count hpos
  generalize count / size = q at hdiv ⊢
  generalize count % size = r at hdiv hlt ⊢
  rw [← hdiv, Nat.add_assoc, Nat.add_sub_assoc (by omega), Nat.mul_add_div hpos]
  congr 1
  split_ifs with hr
  · rw [hr, Nat.zero_add]
    exact Nat.div_eq_of_lt (by omega)
  · exact (Nat.div_eq_iff hpos).mpr (by omega)

/-- One more element begins a new group exactly if all groups were full. -/
theorem groups_succ
    {size : Nat}
    (hpos : 0 < size)
    (count : Nat) :
    (count + 1 + size - 1) / size =
      if count % size = 0 then (count + size - 1) / size + 1 else (count + size - 1) / size := by
  have hnext : (count + 1 + size - 1) / size = count / size + 1 := by
    rw [← Nat.add_div_right count hpos]
    congr 1
    omega
  rw [hnext, groups_eq hpos]
  split_ifs <;> rfl

/-- A group exists exactly if it has a first element. -/
theorem lt_groups_iff
    {size count k : Nat}
    (hpos : 0 < size) :
    k < (count + size - 1) / size ↔ k * size < count := by
  rw [Nat.lt_iff_add_one_le, Nat.le_div_iff_mul_le hpos, Nat.succ_mul]
  omega

end Chunks
end LsmStore
