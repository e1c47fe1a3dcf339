import LsmStore.Blocks.Offsets

/-!
# Another restart interval

The restart interval is not stored with a block.  A block that is loaded gets the
interval of the session, and only the access by index uses it: it divides the
index by the interval to find the restart in front of the entry, and counts on
from there.  Reading one entry after the other does not depend on it.

With another interval than that of the builder, the two agree on all entries
exactly if the block has no more entries than the new interval, so that all of
them are counted from the beginning.
-/

namespace LsmStore
namespace Blocks

open Chunks

variable {F : Format} {es : F.Entries}

/-- The block in a session with another interval. -/
def DataBlock.withInterval (b : DataBlock F) (interval : Nat) : DataBlock F :=
  { b with restartInterval := interval }

/-- The same place in that block. -/
def DataEntry.withInterval (e : DataEntry F) (interval : Nat) : DataEntry F :=
  { e with block := e.block.withInterval interval }

/-! ## What does not depend on the interval -/

section Transfer

variable {b : DataBlock F} {key : Key} {entry : DataEntry F}

theorem getEntryAtOffset_withInterval
    {offset : Nat} {previous : Key}
    (h : b.getEntryAtOffset offset previous = .value (key, entry))
    (interval : Nat) :
    (b.withInterval interval).getEntryAtOffset offset previous =
      .value (key, entry.withInterval interval) := by
  unfold DataBlock.getEntryAtOffset at h ⊢
  dsimp only [DataBlock.withInterval] at h ⊢
  by_cases hinvalid : b.restartListStart < offset + headerLength F + EntryHeader.size F
  · rw [if_pos hinvalid] at h
    cases h
  rw [if_neg hinvalid] at h
  refine (if_neg hinvalid).trans ?_
  obtain ⟨bytes, hbytes, h⟩ := Outcome.bind_eq_value h
  obtain ⟨shared, hshared, h⟩ := Outcome.bind_eq_value h
  obtain ⟨suffix, hsuffix, h⟩ := Outcome.bind_eq_value h
  obtain ⟨next, hnext, h⟩ := Outcome.bind_eq_value h
  cases h
  rw [hbytes, Outcome.value_bind, hshared, Outcome.value_bind, hsuffix, Outcome.value_bind,
    hnext, Outcome.value_bind]
  rfl

theorem nextEntries_withInterval
    {count : Nat} {key' : Key} {entry' : DataEntry F}
    (h : b.nextEntries count (key, entry) = .value (key', entry'))
    (interval : Nat) :
    (b.withInterval interval).nextEntries count (key, entry.withInterval interval) =
      .value (key', entry'.withInterval interval) := by
  induction count generalizing key entry with
  | zero =>
      cases h
      rfl
  | succ count ih =>
      rw [DataBlock.nextEntries] at h ⊢
      obtain ⟨⟨next, e⟩, hget, h⟩ := Outcome.bind_eq_value h
      have hget' := getEntryAtOffset_withInterval hget interval
      dsimp only [DataEntry.withInterval] at hget' ⊢
      rw [hget', Outcome.value_bind]
      exact ih h

theorem entryInOrder_withInterval
    {i : Nat} {e : BlockEntry F.values.V}
    (hfits : Fits F es)
    (h : es[i]? = some (key, e))
    (interval : Nat) :
    ((encodeBlock F es).withInterval interval).entryInOrder i =
      .value (key, (entryAt F es i).withInterval interval) := by
  have horder := entryInOrder_eq hfits h
  rw [DataBlock.entryInOrder] at horder
  obtain ⟨⟨first, e⟩, hget, hnext⟩ := Outcome.bind_eq_value horder
  rw [DataBlock.entryInOrder, getEntryAtOffset_withInterval hget interval, Outcome.value_bind]
  exact nextEntries_withInterval hnext interval

end Transfer

/-! ## Access by index -/

/-- There is no restart behind the last one. -/
theorem getRestartOffset_panics
    (hfits : Fits F es) :
    ∃ message, (encodeBlock F es).getRestartOffset (numRestarts F es.length) =
      .panic message := by
  have hlength := length_data es
  have hstart := restartListStart_eq hfits
  rw [DataBlock.getRestartOffset, sliceRange, if_neg (by omega), if_pos (by omega)]
  exact ⟨_, rfl⟩

/-- Up to the first restart of the session, entries are counted from the beginning. -/
theorem getEntryAtIndex_of_lt
    {i interval : Nat} {key : Key} {e : BlockEntry F.values.V}
    (hfits : Fits F es)
    (h : es[i]? = some (key, e))
    (hlt : i < interval) :
    ((encodeBlock F es).withInterval interval).getEntryAtIndex i =
      .value (key, (entryAt F es i).withInterval interval) := by
  have hlen := (List.getElem?_eq_some_iff.mp h).1
  have hrestart := getRestartOffset_eq hfits
    (lt_numRestarts_iff.mpr (by omega : 0 * F.blockRestartInterval < es.length))
  rw [Nat.zero_mul, offset_zero] at hrestart
  have hdiv : i / interval = 0 := Nat.div_eq_of_lt hlt
  have horder := entryInOrder_withInterval hfits h interval
  rw [DataBlock.entryInOrder] at horder
  rw [DataBlock.getEntryAtIndex]
  dsimp only [DataBlock.withInterval] at horder ⊢
  rw [hdiv, Nat.zero_mul, Nat.sub_zero]
  exact (congrArg (· >>= _) hrestart).trans horder

/-- For the entry at the first restart of the session, the second restart of the block is read. -/
theorem getEntryAtIndex_interval
    {interval : Nat}
    (hpos : 0 < interval) :
    ((encodeBlock F es).withInterval interval).getEntryAtIndex interval =
      (encodeBlock F es).getRestartOffset 1 >>= fun restartOffset =>
        ((encodeBlock F es).withInterval interval).getEntryAtOffset restartOffset
          (ByteVec.ofList []) := by
  have hdiv : interval / interval = 1 := Nat.div_self hpos
  rw [DataBlock.getEntryAtIndex]
  dsimp only [DataBlock.withInterval]
  rw [hdiv, Nat.one_mul, Nat.sub_self]
  refine congrArg (_ >>= ·) (funext fun restartOffset => ?_)
  generalize DataBlock.getEntryAtOffset _ restartOffset (ByteVec.ofList []) = found
  cases found <;> rfl

/-- There stands the entry behind the first interval of the builder. -/
theorem getEntryAtIndex_second_restart
    {key : Key} {e : BlockEntry F.values.V}
    (hfits : Fits F es)
    (interval : Nat)
    (hpos : 0 < interval)
    (h : es[F.blockRestartInterval]? = some (key, e)) :
    ((encodeBlock F es).withInterval interval).getEntryAtIndex interval =
      .value (key, (entryAt F es F.blockRestartInterval).withInterval interval) := by
  have hlt := (List.getElem?_eq_some_iff.mp h).1
  have hrestart := getRestartOffset_eq hfits
    (lt_numRestarts_iff.mpr (by omega : 1 * F.blockRestartInterval < es.length))
  rw [← Nat.one_mul F.blockRestartInterval] at h ⊢
  rw [getEntryAtIndex_interval hpos, hrestart, Outcome.value_bind]
  exact getEntryAtOffset_withInterval (getEntryAtOffset_restart hfits h _) interval

/-- A block with one restart has no entry there. -/
theorem getEntryAtIndex_no_restart
    {interval : Nat}
    (hfits : Fits F es)
    (hpos : 0 < interval)
    (hne : es ≠ [])
    (hle : es.length ≤ F.blockRestartInterval) :
    ∃ message, ((encodeBlock F es).withInterval interval).getEntryAtIndex interval =
      .panic message := by
  have hlen := List.length_pos_iff.mpr hne
  have hone : numRestarts F es.length = 1 := by
    have hzero : 0 < numRestarts F es.length := lt_numRestarts_iff.mpr (by omega)
    have hnot : ¬ 1 < numRestarts F es.length := fun hone =>
      absurd (lt_numRestarts_iff.mp hone) (by omega)
    omega
  obtain ⟨message, hpanic⟩ := getRestartOffset_panics hfits
  rw [hone] at hpanic
  exact ⟨message, by rw [getEntryAtIndex_interval hpos, hpanic, Outcome.panic_bind]⟩

/-- A block of entries that is loaded in a session with another interval: every entry is found
by its index, as it is when the entries are read one after the other, exactly if the intervals
are the same or the block has no more entries than the interval of the session. -/
theorem index_access_agrees_iff
    (F : Format) (es : F.Entries) (interval : Nat)
    (hpos : 0 < interval)
    (hsize : blockSize F es < 2 ^ 32) :
    (∃ b, DataBlock.newFromData F (encodeBlock F es).data interval = .value b ∧
      ∀ i key e, es[i]? = some (key, e) →
        ∃ entry, b.getEntryAtIndex i = .value (key, entry) ∧
          b.entryInOrder i = .value (key, entry) ∧ entry.read = .value e) ↔
      interval = F.blockRestartInterval ∨ es.length ≤ interval := by
  have hfits : Fits F es := by
    rw [blockSize_eq] at hsize
    exact hsize
  have hload := newFromData_encodeBlock hfits interval
  constructor
  · rintro ⟨b, hb, hagrees⟩
    obtain rfl := Outcome.value.inj (hload.symm.trans hb)
    rw [or_iff_not_imp_right, not_le]
    intro hlen
    obtain ⟨⟨key, e⟩, hget⟩ : ∃ entry, es[interval]? = some entry :=
      ⟨_, List.getElem?_eq_getElem hlen⟩
    obtain ⟨entry, hindex, horder, -⟩ := hagrees interval key e hget
    have hlt : F.blockRestartInterval < es.length := by
      by_contra hle
      obtain ⟨message, hpanic⟩ := getEntryAtIndex_no_restart hfits hpos
        (List.length_pos_iff.mp (by omega)) (not_lt.mp hle)
      cases hindex.symm.trans hpanic
    have hentry : entry = (entryAt F es F.blockRestartInterval).withInterval interval :=
      (Prod.mk.inj (Outcome.value.inj (hindex.symm.trans
        (getEntryAtIndex_second_restart hfits interval hpos (List.getElem?_eq_getElem hlt))))).2
    have hplace : entry = (entryAt F es interval).withInterval interval :=
      (Prod.mk.inj (Outcome.value.inj
        (horder.symm.trans (entryInOrder_withInterval hfits hget interval)))).2
    -- different entries begin at different places
    have hoffset : offset (chunks F es) interval = offset (chunks F es) F.blockRestartInterval :=
      Nat.add_right_cancel (congrArg DataEntry.offset (hplace.symm.trans hentry))
    rcases lt_trichotomy interval F.blockRestartInterval with hbelow | heq | habove
    · exact absurd hoffset (ne_of_lt (offset_lt (chunks_ne_nil es) hbelow
        (by rw [length_chunks]; omega)))
    · exact heq
    · exact absurd hoffset.symm (ne_of_lt (offset_lt (chunks_ne_nil es) habove
        (by rw [length_chunks]; omega)))
  · intro hcond
    refine ⟨_, hload, fun i key e h => ?_⟩
    refine ⟨(entryAt F es i).withInterval interval, ?_,
      entryInOrder_withInterval hfits h interval, read_entryAt hfits h⟩
    rcases hcond with rfl | hle
    · exact getEntryAtIndex_eq hfits h
    · have hlt := (List.getElem?_eq_some_iff.mp h).1
      exact getEntryAtIndex_of_lt hfits h (by omega)

/-- Three entries of one-byte keys. -/
def threeEntries (F : Format) (value : F.values.V) : F.Entries :=
  [(ByteVec.ofList [1], .put 1 value), (ByteVec.ofList [2], .put 2 value),
    (ByteVec.ofList [3], .put 3 value)]

/-- Written with interval 2 and read with interval 4, a block of three entries agrees. -/
theorem index_access_agrees_short :
    let F := Format.basic 2 1000 (by decide)
    let es := threeEntries F (ByteVec.ofList [7])
    ∃ b entry, DataBlock.newFromData F (encodeBlock F es).data 4 = .value b ∧
      b.getEntryAtIndex 2 = .value (ByteVec.ofList [3], entry) ∧
      b.entryInOrder 2 = .value (ByteVec.ofList [3], entry) := by
  intro F es
  obtain ⟨b, hload, hagrees⟩ :=
    (index_access_agrees_iff F es 4 (by decide) (by decide +kernel)).mpr (Or.inr (by decide))
  obtain ⟨entry, hindex, horder, -⟩ := hagrees 2 (ByteVec.ofList [3]) _ rfl
  exact ⟨b, entry, hload, hindex, horder⟩

/-- Written with interval 2 and read with interval 1: the second entry by its index is the
third one. -/
theorem index_access_skips_entry :
    let F := Format.basic 2 1000 (by decide)
    let es := threeEntries F (ByteVec.ofList [7])
    ∃ b found next, DataBlock.newFromData F (encodeBlock F es).data 1 = .value b ∧
      b.getEntryAtIndex 1 = .value (ByteVec.ofList [3], found) ∧
      b.entryInOrder 1 = .value (ByteVec.ofList [2], next) ∧
      ¬ ∃ entry, b.getEntryAtIndex 1 = .value (ByteVec.ofList [2], entry) := by
  intro F es
  have hfits : Fits F es := by
    unfold Fits
    decide +kernel
  have hload := newFromData_encodeBlock hfits 1
  have hindex := getEntryAtIndex_second_restart hfits 1 Nat.one_pos
    (rfl : es[2]? = some (ByteVec.ofList [3], _))
  refine ⟨_, _, _, hload, hindex, entryInOrder_withInterval hfits rfl 1, ?_⟩
  rintro ⟨entry, hentry⟩
  have hkeys : (ByteVec.ofList [3] : Key) = ByteVec.ofList [2] :=
    congrArg Prod.fst (Outcome.value.inj (hindex.symm.trans hentry))
  exact absurd hkeys (by decide)

end Blocks
end LsmStore
