import LsmStore.Blocks.Lookup

/-!
# Offsets of 32 bits

The places in a data block are kept as numbers of 32 bits: the restart offsets and
the start of the restart list in the file, the offset of the next entry while the
block is read.  They are cut from numbers of 64 bits without a check, and a block
is closed when it has enough entries, whatever their size.

The numbers are exact, and the block can be read back, as long as its header and
its entries together are smaller than 2^32 bytes, and not beyond that.
-/

namespace LsmStore
namespace Blocks

open Chunks

variable {F : Format} {es : F.Entries}

/-- One entry after the other from the beginning of the block. -/
def DataBlock.entryInOrder (b : DataBlock F) (index : Nat) : Outcome (Key × DataEntry F) := do
  let found ← b.getEntryAtOffset 0 (ByteVec.ofList [])
  b.nextEntries index found

theorem entryInOrder_eq
    {i : Nat} {key : Key} {e : BlockEntry F.values.V}
    (hfits : Fits F es)
    (h : es[i]? = some (key, e)) :
    (encodeBlock F es).entryInOrder i = .value (key, entryAt F es i) := by
  have hlt := (List.getElem?_eq_some_iff.mp h).1
  obtain ⟨⟨first, f⟩, hfirst⟩ : ∃ entry, es[0]? = some entry :=
    ⟨_, List.getElem?_eq_getElem (Nat.lt_of_le_of_lt (Nat.zero_le i) hlt)⟩
  have hget := getEntryAtOffset_entryAt hfits hfirst
    (continues_restart (Nat.zero_mod _) (ByteVec.ofList []) first)
  rw [offset_zero] at hget
  rw [DataBlock.entryInOrder, hget, Outcome.value_bind,
    nextEntries_eq hfits hfirst (by rw [Nat.zero_add]; exact h), Nat.zero_add]

/-- The bytes of an entry: its header, the part of the key that it does not share with the key
before, and what the value has behind the header. -/
def entrySize (es : F.Entries) (i : Nat)
    (entry : Key × BlockEntry F.values.V) : Nat :=
  EntryHeader.size F + (entry.1.len - prefixLenAt F es i entry.1) +
    (F.values.body (stored F entry.2)).length

/-- The bytes of the header of a block and of its entries. -/
def blockSize (F : Format) (es : F.Entries) : Nat :=
  headerLength F + (es.mapIdx (entrySize es)).sum

theorem blockSize_eq
    (F : Format) (es : F.Entries) :
    blockSize F es = headerLength F + (chunks F es).flatten.length := by
  have hlengths : (chunks F es).map List.length = es.mapIdx (entrySize es) := by
    refine List.ext_getElem (by simp [length_chunks]) fun i hi hi' => ?_
    rw [List.getElem_map, List.getElem_mapIdx]
    simp only [chunks, List.getElem_mapIdx]
    exact length_entryBytes _ _ _
  rw [blockSize, List.length_flatten, hlengths]

/-- All places of a block are what they stand for, and the entries are read back. -/
structure OffsetsExact (F : Format) (es : F.Entries) : Prop where
  /-- The restart list of the builder has the places of the entries with a whole key. -/
  restartList : (builderOf F es).restartList = restarts F es
  /-- The restart list starts where the builder has put it. -/
  restartListStart : (encodeBlock F es).restartListStart = (builderOf F es).data.length
  entries : ∀ i key e, es[i]? = some (key, e) →
    ∃ entry, (encodeBlock F es).entryInOrder i = .value (key, entry) ∧
      entry.nextOffset = offset (chunks F es) (i + 1) ∧ entry.read = .value e

theorem length_builderOf
    (es : F.Entries) :
    (builderOf F es).data.length = headerLength F + (chunks F es).flatten.length := by
  rw [builderOf, List.length_append, List.length_replicate]

theorem offsetsExact_iff
    (F : Format) (es : F.Entries) :
    OffsetsExact F es ↔ blockSize F es < 2 ^ 32 := by
  rw [blockSize_eq]
  constructor
  · intro h
    have hstart := h.restartListStart
    rw [length_builderOf] at hstart
    rw [← hstart]
    exact Nat.mod_lt _ (by norm_num)
  · intro hfits
    refine ⟨?_, ?_, ?_⟩
    · refine (List.map_congr_left fun place hplace => ?_).trans (List.map_id _)
      -- an entry begins in front of the restart list
      obtain ⟨k, -, rfl⟩ := List.mem_map.mp hplace
      have hle := offset_le_length (chunks F es) (k * F.blockRestartInterval)
      exact u32_of_lt (by omega)
    · rw [length_builderOf]
      exact restartListStart_eq hfits
    · intro i key e h
      exact ⟨entryAt F es i, entryInOrder_eq hfits h, rfl, read_entryAt hfits h⟩

/-- Building a table always succeeds.  The places in all of its blocks are exact exactly if every
block is smaller than 2^32 bytes. -/
theorem block_offsets_exact_iff
    (s : DataBlocks F) (identifier : UInt64) (minKey maxKey : Key)
    (entries : F.Entries) :
    buildTable s identifier minKey maxKey entries =
        .value (tableOf identifier s.nextDataBlockId minKey maxKey
            (split F.maxKeyBlockSize entries),
          storeTable s identifier minKey maxKey (split F.maxKeyBlockSize entries)) ∧
      ((∀ es ∈ split F.maxKeyBlockSize entries, OffsetsExact F es) ↔
        ∀ es ∈ split F.maxKeyBlockSize entries, blockSize F es < 2 ^ 32) := by
  refine ⟨buildTable_eq identifier minKey maxKey s entries, ?_⟩
  exact forall₂_congr fun es _ => offsetsExact_iff F es

/-- A block that is exactly 2^32 bytes long without its restart list. -/
theorem unreadable_of_blockSize_eq
    (h : blockSize F es = 2 ^ 32) :
    (encodeBlock F es).restartListStart = 0 ∧
      ∀ previous, (encodeBlock F es).getEntryAtOffset 0 previous =
        .panic s!"Invalid offset {headerLength F}" := by
  have hstart : (encodeBlock F es).restartListStart = 0 := by
    change u32 (headerLength F + (chunks F es).flatten.length) = 0
    rw [← blockSize_eq, h]
    exact Nat.mod_self _
  refine ⟨hstart, fun previous => ?_⟩
  rw [DataBlock.getEntryAtOffset, hstart]
  dsimp only
  rw [if_pos, Nat.zero_add]
  rw [EntryHeader.size]
  omega

/-- A table with one value of four gigabytes: the restart list starts behind 2^32 bytes, which
is stored as 0, and no entry can be read. -/
theorem four_gigabytes_unreadable :
    let F := Format.basic 16 1000 (by decide)
    ∃ entries : F.Entries,
      entries.length = 1 ∧ split F.maxKeyBlockSize entries = [entries] ∧
        (builderOf F entries).data.length = 2 ^ 32 ∧
        (encodeBlock F entries).restartListStart = 0 ∧
        (encodeBlock F entries).entryInOrder 0 = .panic "Invalid offset 8" ∧
        ¬ ∀ es ∈ split F.maxKeyBlockSize entries, OffsetsExact F es := by
  intro F
  obtain ⟨value, hvalue⟩ : ∃ value : Value, value.data.length = 2 ^ 32 - 34 := by
    have hlength : (List.replicate (2 ^ 32 - 34) (0 : UInt8)).length = 2 ^ 32 - 34 :=
      List.length_replicate
    exact ⟨⟨List.replicate (2 ^ 32 - 34) 0, by rw [hlength]; norm_num⟩, hlength⟩
  let entries : F.Entries := [(ByteVec.ofList [1], .put 1 value)]
  have hsize : blockSize F entries = 2 ^ 32 := by
    change 8 + (17 + 8 + (1 - 0) + value.data.length + 0) = 2 ^ 32
    omega
  have hsplit : split F.maxKeyBlockSize entries = [entries] := rfl
  obtain ⟨hstart, hpanic⟩ := unreadable_of_blockSize_eq hsize
  refine ⟨entries, rfl, hsplit, ?_, hstart, ?_, ?_⟩
  · rw [length_builderOf, ← blockSize_eq, hsize]
  · have hmessage : s!"Invalid offset {8}" = "Invalid offset 8" := by decide +kernel
    rw [DataBlock.entryInOrder, hpanic, Outcome.panic_bind, ← hmessage]
    rfl
  · rw [hsplit]
    intro hexact
    have hlt := (offsetsExact_iff F entries).mp (hexact entries (List.mem_singleton_self _))
    omega

end Blocks
end LsmStore
