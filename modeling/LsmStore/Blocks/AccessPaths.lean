import LsmStore.Blocks.Offsets

/-!
# The ways into a data block

A block can be read from the beginning to its end, at an index, and by key.
Each of the three reconstructs keys from another place: the beginning, the
closest restart, and the restart the binary search ends at.  They agree: the
entries by index are those that are read one after the other, and a lookup is a
linear search through them.
-/

namespace LsmStore
namespace Blocks

open Chunks

variable {F : Format} {es : F.Entries}

namespace DataBlock

/-- `get_entry_at_offset` from a place on, as long as the place is in front of `stop`. -/
def readLoop (b : DataBlock F) (stop : Nat) :
    Nat → Nat → Key → Outcome (List (Key × DataEntry F))
  | 0, _, _ => .unfinished
  | fuel + 1, pos, lastKey =>
      if pos < stop then do
        let found ← b.getEntryAtOffset pos lastKey
        let rest ← readLoop b stop fuel found.2.nextOffset found.1
        .value (found :: rest)
      else .value []

/-- The whole block from the beginning; every entry takes up at least one byte. -/
def readAll (b : DataBlock F) : Outcome (List (Key × DataEntry F)) := do
  let stop ← b.byteLen
  b.readLoop stop (b.data.length + 1) 0 (ByteVec.ofList [])

end DataBlock

/-- The keys of a block and the places of its entries. -/
def placesOf (F : Format) (es : F.Entries) :
    List (Key × DataEntry F) :=
  es.mapIdx fun i entry => (entry.1, entryAt F es i)

theorem length_placesOf
    (es : F.Entries) :
    (placesOf F es).length = es.length :=
  List.length_mapIdx

theorem getElem?_placesOf
    {i : Nat} {key : Key} {e : BlockEntry F.values.V}
    (h : es[i]? = some (key, e)) :
    (placesOf F es)[i]? = some (key, entryAt F es i) := by
  rw [placesOf, List.getElem?_mapIdx, h]
  rfl

/-- From entry `i` on, the rest of the block is read. -/
theorem readLoop_eq
    (hfits : Fits F es)
    {fuel i : Nat} (previous : Key)
    (hi : i ≤ es.length)
    (hprevious : ∀ next e, es[i]? = some (next, e) → Continues F es i previous next)
    (hfuel : es.length - i < fuel) :
    (encodeBlock F es).readLoop (offset (chunks F es) es.length) fuel
        (offset (chunks F es) i) previous =
      .value ((placesOf F es).drop i) := by
  induction fuel generalizing i previous with
  | zero =>
      omega
  | succ fuel ih =>
      rw [DataBlock.readLoop]
      rcases Nat.eq_or_lt_of_le hi with rfl | hlt
      · rw [if_neg (lt_irrefl _), List.drop_of_length_le (by rw [length_placesOf])]
      · have hoffset : offset (chunks F es) i < offset (chunks F es) es.length :=
          offset_lt (chunks_ne_nil es) hlt (by rw [length_chunks])
        obtain ⟨⟨next, e⟩, hnext⟩ : ∃ entry, es[i]? = some entry :=
          ⟨_, List.getElem?_eq_getElem hlt⟩
        have hcontinues : ∀ next' e', es[i + 1]? = some (next', e') →
            Continues F es (i + 1) next next' := by
          intro next' e' _
          have h := continues_previousKey es (i + 1) next'
          rwa [previousKey, hnext] at h
        have hrest := ih next hlt hcontinues (by omega)
        obtain ⟨hplace, hget⟩ := List.getElem?_eq_some_iff.mp (getElem?_placesOf hnext)
        rw [if_pos hoffset, getEntryAtOffset_entryAt hfits hnext (hprevious next e hnext),
          Outcome.value_bind]
        change (DataBlock.readLoop _ _ _ (offset (chunks F es) (i + 1)) next >>= _) = _
        rw [hrest, Outcome.value_bind, List.drop_eq_getElem_cons hplace, hget]

/-- **Reading a block from the beginning to its end.** -/
theorem readAll_eq
    (hfits : Fits F es) :
    (encodeBlock F es).readAll = .value (placesOf F es) := by
  have hcount := le_offset (chunks_ne_nil es) (le_refl (chunks F es).length)
  rw [offset_length, length_chunks] at hcount
  have hlength := length_data es
  have hloop := readLoop_eq hfits (ByteVec.ofList []) (Nat.zero_le es.length)
    (fun next e _ => continues_restart (Nat.zero_mod _) _ next)
    (show es.length - 0 < (encodeBlock F es).data.length + 1 by omega)
  rw [offset_zero, List.drop_zero] at hloop
  rw [DataBlock.readAll, byteLen_eq hfits, Outcome.value_bind, hloop]

theorem mem_placesOf
    {found : Key × DataEntry F}
    (h : found ∈ placesOf F es) :
    ∃ i e, es[i]? = some (found.1, e) ∧ found.2 = entryAt F es i := by
  obtain ⟨i, hi⟩ := List.getElem?_of_mem h
  rw [placesOf, List.getElem?_mapIdx] at hi
  obtain ⟨⟨key, e⟩, hentry, rfl⟩ := Option.map_eq_some_iff.mp hi
  exact ⟨i, e, hentry, rfl⟩

/-- A lookup is a linear search. -/
theorem getByKey_eq_find
    (hfits : Fits F es)
    (hne : es ≠ [])
    (hsorted : es.Pairwise fun a b => a.1 < b.1)
    (key : Key) :
    (encodeBlock F es).getByKey key =
      .value (((placesOf F es).find? fun found => found.1 = key).map Prod.snd) := by
  obtain ⟨hhit, hmiss⟩ := getByKey_eq hfits hne hsorted key
  cases hfind : (placesOf F es).find? fun found => found.1 = key with
  | some found =>
      obtain ⟨i, e, hentry, hplace⟩ := mem_placesOf (List.mem_of_find?_eq_some hfind)
      have hkey : found.1 = key := by
        have hfound := List.find?_some hfind
        exact of_decide_eq_true hfound
      rw [hkey] at hentry
      rw [hhit i e hentry, Option.map_some, hplace]
  | none =>
      rw [Option.map_none]
      refine hmiss fun e hmem => ?_
      obtain ⟨i, hi⟩ := List.getElem?_of_mem hmem
      have hother := List.find?_eq_none.mp hfind _ (List.mem_of_getElem? (getElem?_placesOf hi))
      exact hother (decide_eq_true rfl)

/-- All ways into a block lead to the same entries. -/
structure PathsAgree (F : Format) (b : DataBlock F)
    (es : F.Entries) (found : List (Key × DataEntry F)) : Prop where
  /-- The block can be loaded again from its bytes. -/
  reload : DataBlock.newFromData F b.data F.blockRestartInterval = .value b
  numEntries : b.numEntries = es.length
  /-- From the beginning to the end there are as many entries as were added, -/
  inOrder : b.readAll = .value found ∧ found.length = es.length
  /-- and these are the ones that were added. -/
  entries : ∀ (i : Nat) (key : Key) (e : BlockEntry F.values.V), es[i]? = some (key, e) →
    ∃ entry : DataEntry F, found[i]? = some (key, entry) ∧ entry.read = .value e
  atIndex : ∀ i < b.numEntries, ∃ key entry, found[i]? = some (key, entry) ∧
    b.getEntryAtIndex i = .value (key, entry)
  byKey : ∀ key, b.getByKey key =
    .value ((found.find? fun entry => entry.1 = key).map Prod.snd)

theorem pathsAgree_encodeBlock
    (hfits : Fits F es)
    (hne : es ≠ [])
    (hsorted : es.Pairwise fun a b => a.1 < b.1) :
    PathsAgree F (encodeBlock F es) es (placesOf F es) where
  reload := newFromData_encodeBlock hfits F.blockRestartInterval
  numEntries := rfl
  inOrder := ⟨readAll_eq hfits, length_placesOf es⟩
  entries := fun i _ _ h => ⟨entryAt F es i, getElem?_placesOf h, read_entryAt hfits h⟩
  atIndex := by
    intro i hi
    obtain ⟨⟨key, e⟩, hentry⟩ : ∃ entry, es[i]? = some entry :=
      ⟨_, List.getElem?_eq_getElem hi⟩
    exact ⟨key, entryAt F es i, getElem?_placesOf hentry, getEntryAtIndex_eq hfits hentry⟩
  byKey := getByKey_eq_find hfits hne hsorted

/-- **Access paths agree.**  A table of entries with increasing keys can be built, and in every
block of it that is smaller than 2^32 bytes all access paths agree. -/
theorem access_paths_agree
    (s : DataBlocks F) (identifier : UInt64) (minKey maxKey : Key)
    (entries : F.Entries)
    (hsorted : entries.Pairwise fun a b => a.1 < b.1) :
    ∃ blocks, blocks.flatten = entries ∧
      buildTable s identifier minKey maxKey entries =
        .value (tableOf identifier s.nextDataBlockId minKey maxKey blocks,
          storeTable s identifier minKey maxKey blocks) ∧
      ∀ es ∈ blocks, (builderOf F es).finish = some (encodeBlock F es) ∧
        ((encodeBlock F es).data.length < 2 ^ 32 →
          ∃ found, PathsAgree F (encodeBlock F es) es found) := by
  have hflatten := flatten_split_eq F.maxKeyBlockSize entries
  refine ⟨split F.maxKeyBlockSize entries, hflatten,
    buildTable_eq identifier minKey maxKey s entries, fun es hes => ?_⟩
  have hne : es ≠ [] := split_ne_nil hes
  have hsorted' : es.Pairwise fun a b => a.1 < b.1 := by
    rw [← hflatten] at hsorted
    exact hsorted.sublist (List.sublist_flatten_of_mem hes)
  refine ⟨finish_builderOf hne, fun hsize => ?_⟩
  exact ⟨placesOf F es, pathsAgree_encodeBlock (SmallBlock.fits hsize) hne hsorted'⟩

/-- Three keys that share their first byte, in two blocks. -/
theorem access_paths_agree_three :
    let F := Format.basic 2 2 (by decide)
    let entries : F.Entries :=
      [(ByteVec.ofList [1], .put 1 (ByteVec.ofList [7])),
        (ByteVec.ofList [1, 1], .delete 2),
        (ByteVec.ofList [1, 2], .put 3 (ByteVec.ofList []))]
    ∃ blocks : List F.Entries, blocks.flatten = entries ∧
      ∀ es ∈ blocks, (builderOf F es).finish = some (encodeBlock F es) ∧
        ∃ found, PathsAgree F (encodeBlock F es) es found := by
  intro F entries
  obtain ⟨blocks, hflatten, -, hblocks⟩ := access_paths_agree (DataBlocks.empty F) 1
    (ByteVec.ofList [1]) (ByteVec.ofList [1, 2]) entries (by decide)
  have hsize : ∀ es ∈ entries.sublists, (encodeBlock F es).data.length < 2 ^ 32 := by
    decide +kernel
  refine ⟨blocks, hflatten, fun es hes => (hblocks es hes).imp_right fun hpaths => ?_⟩
  exact hpaths (hsize es (List.mem_sublists.mpr (hflatten ▸ List.sublist_flatten_of_mem hes)))

end Blocks
end LsmStore
