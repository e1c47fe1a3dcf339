import LsmStore.Blocks.Decode

/-!
# The entry of a key

A lookup asks the bloom filter, searches the restart list, and reads the entries
of one interval.  It finds the entry of a key exactly if there is one.
-/

namespace LsmStore
namespace Blocks

open LittleEndian Chunks

variable {F : Format} {es : F.Entries}

/-- The key of entry `i`. -/
def keyAt (es : F.Entries) (i : Nat) : Key :=
  (es[i]?.map Prod.fst).getD (ByteVec.ofList [])

theorem keyAt_eq
    {i : Nat} {key : Key} {e : BlockEntry F.values.V}
    (h : es[i]? = some (key, e)) :
    keyAt es i = key := by
  rw [keyAt, h]
  rfl

section Sorted

variable {i j : Nat} (hsorted : es.Pairwise fun a b => a.1 < b.1)

include hsorted

theorem keyAt_lt
    (hij : i < j)
    (hj : j < es.length) :
    keyAt es i < keyAt es j := by
  have hi : i < es.length := by omega
  rw [keyAt, keyAt, List.getElem?_eq_getElem hi, List.getElem?_eq_getElem hj]
  exact List.pairwise_iff_getElem.mp hsorted i j hi hj hij

theorem keyAt_le
    (hij : i ≤ j)
    (hj : j < es.length) :
    keyAt es i ≤ keyAt es j := by
  rcases Nat.eq_or_lt_of_le hij with rfl | hlt
  · exact le_refl _
  · exact le_of_lt (keyAt_lt hsorted hlt hj)

theorem index_unique
    (hi : i < es.length)
    (hj : j < es.length)
    (h : keyAt es i = keyAt es j) :
    i = j := by
  rcases Nat.lt_trichotomy i j with hlt | heq | hgt
  · exact absurd h (keyAt_lt hsorted hlt hj).ne
  · exact heq
  · exact absurd h (keyAt_lt hsorted hgt hi).ne'

end Sorted

/-- The comparisons of the binary search. -/
def restartCompare (es : F.Entries) (key : Key) (k : Nat) : Ordering :=
  keyCmp (keyAt es (k * F.blockRestartInterval)) key

/-- The end of the loop, in terms of the block. -/
def loopResult (es : F.Entries) :
    BinarySearch.Found → SearchResult F
  | .exact k => .exactMatch (entryAt F es (k * F.blockRestartInterval))
  | .window start stop => .range start stop

theorem searchLoop_eq
    (hfits : Fits F es)
    (key : Key)
    {fuel start stop : Nat}
    (hstop : stop < numRestarts F es.length)
    (hfuel : stop - start ≤ fuel + 1) :
    (encodeBlock F es).searchLoop key (fuel + 1) start stop =
      .value (loopResult es
        (BinarySearch.search (restartCompare es key) fuel start stop)) := by
  induction fuel generalizing start stop with
  | zero =>
      rw [DataBlock.searchLoop, if_pos hfuel]
      rfl
  | succ fuel ih =>
      rw [DataBlock.searchLoop, BinarySearch.search]
      split_ifs with hclose
      · rfl
      · have hmid : start < start + (stop - start) / 2 ∧
            start + (stop - start) / 2 < stop := by omega
        dsimp only
        generalize start + (stop - start) / 2 = mid at hmid
        have hlt := lt_numRestarts_iff.mp (lt_trans hmid.2 hstop)
        obtain ⟨⟨found, e⟩, hfound⟩ : ∃ entry, es[mid * F.blockRestartInterval]? = some entry :=
          ⟨_, List.getElem?_eq_getElem hlt⟩
        rw [getRestartOffset_eq hfits (lt_trans hmid.2 hstop), Outcome.value_bind,
          getEntryAtOffset_restart hfits hfound, Outcome.value_bind, restartCompare,
          keyAt_eq hfound]
        dsimp only
        cases keyCmp found key with
        | eq =>
            rfl
        | lt =>
            exact ih hstop (by omega)
        | gt =>
            exact ih (lt_trans hmid.2 hstop) (by omega)

/-- The scan goes through the entries up to its end, and returns the one of the key. -/
theorem scanLoop_eq
    (hfits : Fits F es)
    (hsorted : es.Pairwise fun a b => a.1 < b.1)
    (key : Key)
    {fuel i stop : Nat} {previous : Key}
    (hstop : stop ≤ es.length)
    (hprevious : ∀ next e, es[i]? = some (next, e) → Continues F es i previous next)
    (hfuel : stop - i < fuel) :
    (∀ j, i ≤ j → j < stop → keyAt es j = key →
      (encodeBlock F es).scanLoop key (offset (chunks F es) stop) fuel
        (offset (chunks F es) i) previous = .value (some (entryAt F es j))) ∧
    ((∀ j, i ≤ j → j < stop → keyAt es j ≠ key) →
      (encodeBlock F es).scanLoop key (offset (chunks F es) stop) fuel
        (offset (chunks F es) i) previous = .value none) := by
  induction fuel generalizing i previous with
  | zero =>
      omega
  | succ fuel ih =>
      rw [DataBlock.scanLoop]
      rcases Nat.lt_or_ge i stop with hlt | hge
      · have hoffset : offset (chunks F es) i < offset (chunks F es) stop :=
          offset_lt (chunks_ne_nil es) hlt (by rw [length_chunks]; exact hstop)
        obtain ⟨⟨next, e⟩, hnext⟩ : ∃ entry, es[i]? = some entry :=
          ⟨_, List.getElem?_eq_getElem (by omega)⟩
        have hcontinues : ∀ next' e', es[i + 1]? = some (next', e') →
            Continues F es (i + 1) next next' := by
          intro next' e' _
          have h := continues_previousKey es (i + 1) next'
          rwa [previousKey, hnext] at h
        obtain ⟨hhit, hmiss⟩ := ih hcontinues (by omega)
        rw [if_pos hoffset, getEntryAtOffset_entryAt hfits hnext (hprevious next e hnext),
          Outcome.value_bind]
        dsimp only
        have hkeyAt := keyAt_eq hnext
        constructor
        · intro j hij hj hkey
          rcases Nat.eq_or_lt_of_le hij with rfl | hlt'
          · rw [if_pos (hkey.symm.trans hkeyAt)]
          · have hne : key ≠ next := by
              rw [← hkey, ← hkeyAt]
              exact (keyAt_lt hsorted hlt' (by omega)).ne'
            rw [if_neg hne]
            exact hhit j hlt' hj hkey
        · intro hnone
          have hne : key ≠ next := by
            rw [← hkeyAt]
            exact (hnone i (le_refl i) hlt).symm
          rw [if_neg hne]
          exact hmiss fun j hij hj => hnone j (Nat.le_of_succ_le hij) hj
      · have hoffset : ¬ offset (chunks F es) i < offset (chunks F es) stop :=
          not_lt.mpr (offset_mono hge)
        rw [if_neg hoffset]
        refine ⟨fun j hij hj _ => ?_, fun _ => rfl⟩
        omega

/-- The filter lets every key of the block pass. -/
theorem check_filterOf
    {i : Nat} {key : Key} {e : BlockEntry F.values.V}
    (h : es[i]? = some (key, e)) :
    F.bloom.check (filterOf F es) key.data = true := by
  have hmem : (key, e) ∈ es := List.mem_of_getElem? h
  clear h
  induction es using List.reverseRecOn with
  | nil =>
      cases hmem
  | append_singleton es other ih =>
      rw [filterOf, List.foldl_append]
      rcases List.mem_append.mp hmem with hold | hnew
      · exact F.bloom.check_set_of_check _ _ _ (ih hold)
      · rw [← List.mem_singleton.mp hnew]
        exact F.bloom.check_set _ _

theorem mem_of_keyAt
    {i : Nat} {key : Key}
    (hi : i < es.length)
    (h : keyAt es i = key) :
    ∃ e, (key, e) ∈ es := by
  obtain ⟨⟨other, e⟩, hget⟩ : ∃ entry, es[i]? = some entry := ⟨_, List.getElem?_eq_getElem hi⟩
  rw [keyAt_eq hget] at h
  subst h
  exact ⟨e, List.mem_of_getElem? hget⟩

section Lookup

variable (hfits : Fits F es) (hne : es ≠ []) (hsorted : es.Pairwise fun a b => a.1 < b.1)

include hfits hne hsorted

/-- Where the search of the restart list ends: at the key, or with the entries among which it
is, if it is there at all. -/
theorem binarySearch_cases
    (key : Key) :
    (∃ i < es.length, keyAt es i = key ∧
      (encodeBlock F es).binarySearch key = .value (.exactMatch (entryAt F es i))) ∨
    ∃ k stop, k < numRestarts F es.length ∧ stop ≤ es.length ∧
      (encodeBlock F es).binarySearch key = .value (.range k (offset (chunks F es) stop)) ∧
      ∀ i < es.length, keyAt es i = key → k * F.blockRestartInterval ≤ i ∧ i < stop := by
  have hpos : 0 < numRestarts F es.length := by
    rw [lt_numRestarts_iff, Nat.zero_mul]
    exact List.length_pos_iff.mpr hne
  have hloop : (encodeBlock F es).searchLoop key (numRestarts F es.length - 1 + 1) 0
      (numRestarts F es.length - 1) = _ :=
    searchLoop_eq hfits key (by omega) (by omega)
  rw [Nat.sub_add_cancel hpos] at hloop
  have hcorrect := BinarySearch.search_correct (restartCompare es key)
    (Nat.zero_le (numRestarts F es.length - 1))
    (show numRestarts F es.length - 1 - 0 ≤ numRestarts F es.length - 1 + 1 by omega)
  rw [DataBlock.binarySearch, restartListLen_eq hfits, Outcome.value_bind,
    checkedSub_of_le hpos, Outcome.value_bind, hloop, Outcome.value_bind]
  cases hfound : BinarySearch.search (restartCompare es key) (numRestarts F es.length - 1) 0
      (numRestarts F es.length - 1) with
  | exact k =>
      rw [hfound] at hcorrect
      obtain ⟨-, hk, heq⟩ := hcorrect
      exact Or.inl ⟨k * F.blockRestartInterval, lt_numRestarts_iff.mp (by omega),
        cmp_eq_eq_iff _ _ |>.mp heq, rfl⟩
  | window start stop =>
      rw [hfound] at hcorrect
      obtain ⟨-, hle, hstop, -, hlo, hhi⟩ := hcorrect
      -- everything in front of the window is too small
      have hlower : ∀ i < es.length, keyAt es i = key → start * F.blockRestartInterval ≤ i := by
        intro i hi hkey
        rcases hlo with rfl | hlt
        · rw [Nat.zero_mul]
          exact Nat.zero_le i
        · by_contra hbefore
          have hlt' := (cmp_eq_lt_iff _ _).mp hlt
          have hle' := keyAt_le hsorted (le_of_lt (not_le.mp hbefore))
            (lt_numRestarts_iff.mp (show start < numRestarts F es.length by omega))
          rw [hkey] at hle'
          exact absurd hlt' (not_lt.mpr hle')
      right
      dsimp only [loopResult]
      by_cases hlast : stop + 1 = numRestarts F es.length
      · refine ⟨start, es.length, by omega, le_refl _, ?_, fun i hi hkey =>
          ⟨hlower i hi hkey, hi⟩⟩
        rw [if_pos hlast, byteLen_eq hfits, Outcome.value_bind]
      · have hstop' := lt_numRestarts_iff.mp (show stop < numRestarts F es.length by omega)
        refine ⟨start, stop * F.blockRestartInterval, by omega, le_of_lt hstop', ?_,
          fun i hi hkey => ⟨hlower i hi hkey, ?_⟩⟩
        · rw [if_neg hlast, getRestartOffset_eq hfits (by omega), Outcome.value_bind]
        · -- and everything behind it is too large
          rcases hhi with heq | hgt
          · omega
          · by_contra hafter
            have hgt' := (cmp_eq_gt_iff _ _).mp hgt
            have hle' := keyAt_le hsorted (not_lt.mp hafter) hi
            rw [hkey] at hle'
            exact absurd hgt' (not_lt.mpr hle')

theorem getByKey_of_check
    {key : Key}
    (hcheck : F.bloom.check (filterOf F es) key.data = true) :
    (∀ i < es.length, keyAt es i = key →
      (encodeBlock F es).getByKey key = .value (some (entryAt F es i))) ∧
    ((∀ i < es.length, keyAt es i ≠ key) → (encodeBlock F es).getByKey key = .value none) := by
  have hfilter : F.bloom.check (encodeBlock F es).bloomFilter key.data = true := hcheck
  rw [DataBlock.getByKey, if_pos hfilter]
  rcases binarySearch_cases hfits hne hsorted key with
    ⟨i, hi, hkey, hsearch⟩ | ⟨k, stop, hk, hstop, hsearch, hrange⟩
  · rw [hsearch, Outcome.value_bind]
    refine ⟨fun j hj hkey' => ?_, fun hnone => absurd hkey (hnone i hi)⟩
    rw [index_unique hsorted hj hi (hkey'.trans hkey.symm)]
  · have hfuel : stop - k * F.blockRestartInterval < (encodeBlock F es).data.length + 1 := by
      have hcount := le_offset (chunks_ne_nil es) (le_refl (chunks F es).length)
      rw [offset_length, length_chunks] at hcount
      have hlength := length_data es
      omega
    have hscan := scanLoop_eq hfits hsorted key hstop
      (fun next e _ => continues_restart (Nat.mul_mod_left k _) (ByteVec.ofList []) next) hfuel
    rw [hsearch, Outcome.value_bind]
    dsimp only
    rw [getRestartOffset_eq hfits hk, Outcome.value_bind]
    constructor
    · intro i hi hkey
      obtain ⟨hlo, hhi⟩ := hrange i hi hkey
      exact hscan.1 i hlo hhi hkey
    · intro hnone
      exact hscan.2 fun j _ hj => hnone j (by omega)

/-- **The entry of a key.** -/
theorem getByKey_eq
    (key : Key) :
    (∀ i e, es[i]? = some (key, e) →
      (encodeBlock F es).getByKey key = .value (some (entryAt F es i))) ∧
    ((∀ e, (key, e) ∉ es) → (encodeBlock F es).getByKey key = .value none) := by
  constructor
  · intro i e h
    exact (getByKey_of_check hfits hne hsorted (check_filterOf h)).1 i
      (List.getElem?_eq_some_iff.mp h).1 (keyAt_eq h)
  · intro hnone
    cases hcheck : F.bloom.check (filterOf F es) key.data with
    | true =>
        refine (getByKey_of_check hfits hne hsorted hcheck).2 fun i hi hkey => ?_
        obtain ⟨e, hmem⟩ := mem_of_keyAt hi hkey
        exact hnone e hmem
    | false =>
        have hfilter : ¬ F.bloom.check (encodeBlock F es).bloomFilter key.data = true :=
          ne_true_of_eq_false hcheck
        rw [DataBlock.getByKey, if_neg hfilter]

end Lookup

end Blocks
end LsmStore
