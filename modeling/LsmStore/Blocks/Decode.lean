import LsmStore.Blocks.Encode

/-!
# Reading a data block

What the reading functions return for the block of a list of entries, as long as
the entries end below 2^32 bytes: an entry at its offset, an entry at its index,
and the whole block from its file.
-/

namespace LsmStore
namespace Blocks

open LittleEndian Chunks

variable {F : Format} {es : F.Entries}

/-- The place of entry `i`. -/
def entryAt (F : Format) (es : F.Entries) (i : Nat) : DataEntry F where
  block := encodeBlock F es
  offset := offset (chunks F es) i + headerLength F
  nextOffset := offset (chunks F es) (i + 1)

/-- The header and the entries end at a place that 32 bits can hold. -/
def Fits (F : Format) (es : F.Entries) : Prop :=
  headerLength F + (chunks F es).flatten.length < 2 ^ 32

/-- The whole block, with its restart list, is smaller than that. -/
def SmallBlock (F : Format) (es : F.Entries) : Prop :=
  (encodeBlock F es).data.length < 2 ^ 32

/-! ## The parts of a block -/

theorem length_dataBlockHeader
    (F : Format) (restartListStart numberOfEntries : Nat) (filter : F.bloom.Filter) :
    (dataBlockHeader F restartListStart numberOfEntries filter).length = headerLength F := by
  rw [dataBlockHeader, List.length_append, List.length_append, encode_length, encode_length,
    F.bloom.length_asSlice, headerLength]
  omega

/-- The restart list as it is stored. -/
def restartChunks (F : Format) (es : F.Entries) : List (List UInt8) :=
  (restarts F es).map fun place => encode 4 (u32 place)

theorem length_restarts
    (es : F.Entries) :
    (restarts F es).length = numRestarts F es.length := by
  rw [restarts, List.length_map, List.length_range]

theorem offset_restartChunks
    {k : Nat}
    (hk : k ≤ numRestarts F es.length) :
    offset (restartChunks F es) k = k * 4 := by
  refine offset_of_width ?_ ?_
  · intro chunk hchunk
    obtain ⟨place, -, rfl⟩ := List.mem_map.mp hchunk
    exact encode_length 4 _
  · rw [restartChunks, List.length_map, length_restarts]
    exact hk

theorem length_restartBytes
    (es : F.Entries) :
    ((restarts F es).flatMap fun place => encode 4 (u32 place)).length =
      numRestarts F es.length * 4 := by
  have hend := offset_length (restartChunks F es)
  rw [restartChunks, List.length_map, length_restarts, ← restartChunks,
    offset_restartChunks (le_refl _)] at hend
  rw [hend]
  rfl

theorem length_data
    (es : F.Entries) :
    (encodeBlock F es).data.length =
      headerLength F + (chunks F es).flatten.length + numRestarts F es.length * 4 := by
  rw [encodeBlock, List.length_append, List.length_append, length_dataBlockHeader,
    length_restartBytes]
  omega

theorem SmallBlock.fits
    (h : SmallBlock F es) :
    Fits F es := by
  have hlength := length_data es
  unfold SmallBlock at h
  unfold Fits
  omega

theorem restartListStart_eq
    (hfits : Fits F es) :
    (encodeBlock F es).restartListStart = headerLength F + (chunks F es).flatten.length :=
  u32_of_lt hfits

theorem length_entryBytes
    (prefixLen : Nat) (key : Key) (e : BlockEntry F.values.V) :
    (entryBytes F prefixLen key e).length =
      EntryHeader.size F + (key.len - prefixLen) + (F.values.body (stored F e)).length := by
  rw [entryBytes, List.length_append, List.length_append, EntryHeader.length_asBytes,
    entryHeader, F.values.length_header, List.length_drop, EntryHeader.size, ByteVec.len]
  omega

theorem chunks_ne_nil
    (es : F.Entries) :
    ∀ chunk ∈ chunks F es, chunk ≠ [] := by
  intro chunk hchunk
  obtain ⟨i, hi⟩ := List.mem_iff_getElem?.mp hchunk
  have hlt := (List.getElem?_eq_some_iff.mp hi).1
  rw [length_chunks] at hlt
  have hsome := getElem?_chunks (List.getElem?_eq_getElem hlt)
  obtain rfl : chunk = _ := Option.some.inj (hi.symm.trans hsome)
  rw [← List.length_pos_iff, length_entryBytes, EntryHeader.size]
  omega

variable {i : Nat} {key : Key} {e : BlockEntry F.values.V}

theorem data_split
    (h : es[i]? = some (key, e)) :
    ∃ front back, (encodeBlock F es).data =
        front ++ (entryBytes F (prefixLenAt F es i key) key e ++ back) ∧
      front.length = offset (chunks F es) i + headerLength F := by
  obtain ⟨front, back, hflatten, hfront⟩ := flatten_split (getElem?_chunks h)
  refine ⟨dataBlockHeader F (headerLength F + (chunks F es).flatten.length) es.length
      (filterOf F es) ++ front,
    back ++ (restarts F es).flatMap fun place => encode 4 (u32 place), ?_, ?_⟩
  · rw [encodeBlock, hflatten]
    simp only [List.append_assoc]
  · rw [List.length_append, length_dataBlockHeader, hfront, Nat.add_comm]

theorem offset_succ_eq
    (h : es[i]? = some (key, e)) :
    offset (chunks F es) (i + 1) = offset (chunks F es) i + EntryHeader.size F +
      (key.len - prefixLenAt F es i key) + (F.values.body (stored F e)).length := by
  rw [offset_succ (getElem?_chunks h), length_entryBytes]
  omega

theorem prefixLenAt_le
    (es : F.Entries) (i : Nat) (key : Key) :
    prefixLenAt F es i key ≤ key.len ∧
      prefixLenAt F es i key ≤ (previousKey F es i).len := by
  unfold prefixLenAt
  split_ifs
  · exact ⟨Nat.zero_le _, Nat.zero_le _⟩
  · exact sharedLen_le _ _

/-- What a key leaves out has been stored with the entries before, so that no key is longer
than the entries up to its own. -/
theorem len_le_offset
    (h : es[i]? = some (key, e)) :
    key.len ≤ offset (chunks F es) (i + 1) := by
  induction i generalizing key e with
  | zero =>
      have hnone : prefixLenAt F es 0 key = 0 := if_pos (Nat.zero_mod _)
      rw [offset_succ_eq h, hnone]
      omega
  | succ i ih =>
      obtain ⟨⟨previous, e'⟩, hget⟩ : ∃ entry, es[i]? = some entry := by
        have hlt := (List.getElem?_eq_some_iff.mp h).1
        exact ⟨_, List.getElem?_eq_getElem (Nat.lt_of_succ_lt hlt)⟩
      have hprevious := ih hget
      have hshared := (prefixLenAt_le es (i + 1) key).2
      rw [previousKey, hget, Option.map_some, Option.getD_some] at hshared
      dsimp only at hshared
      rw [offset_succ_eq h]
      omega

/-! ## An entry at its offset -/

/-- The key in front agrees with what the entry leaves out. -/
def Continues (F : Format) (es : F.Entries) (i : Nat)
    (previous key : Key) : Prop :=
  previous.data.take (prefixLenAt F es i key) = key.data.take (prefixLenAt F es i key)

theorem continues_previousKey
    (es : F.Entries) (i : Nat) (key : Key) :
    Continues F es i (previousKey F es i) key := by
  unfold Continues prefixLenAt
  split_ifs
  · rfl
  · exact take_sharedLen _ _

theorem continues_restart
    {i : Nat}
    (h : i % F.blockRestartInterval = 0)
    (previous key : Key) :
    Continues F es i previous key := by
  unfold Continues prefixLenAt
  rw [if_pos h]
  rfl

theorem refFromBytes_entryHeader
    (hfits : Fits F es)
    (h : es[i]? = some (key, e)) :
    EntryHeader.refFromBytes (entryHeader F (prefixLenAt F es i key) key e).asBytes =
      entryHeader F (prefixLenAt F es i key) key e := by
  have hlen := len_le_offset h
  have hle := offset_le_length (chunks F es) (i + 1)
  have hshared := (prefixLenAt_le es i key).1
  unfold Fits at hfits
  refine EntryHeader.refFromBytes_asBytes ?_ ?_
  · change prefixLenAt F es i key < 2 ^ 32
    omega
  · change (key.data.drop (prefixLenAt F es i key)).length < 2 ^ 32
    rw [List.length_drop]
    change key.len - prefixLenAt F es i key < 2 ^ 32
    omega

theorem entry_slices
    (h : es[i]? = some (key, e)) :
    let start := offset (chunks F es) i + headerLength F
    let p := prefixLenAt F es i key
    let suffix := key.data.drop p
    let body := F.values.body (stored F e)
    sliceRange (encodeBlock F es).data start (start + EntryHeader.size F) =
        .value (entryHeader F p key e).asBytes ∧
      sliceRange (encodeBlock F es).data (start + EntryHeader.size F)
          (start + EntryHeader.size F + suffix.length) = .value suffix ∧
      sliceRange (encodeBlock F es).data (start + EntryHeader.size F + suffix.length)
          (start + EntryHeader.size F + suffix.length + body.length) = .value body := by
  intro start p suffix body
  obtain ⟨front, back, hdata, hfront⟩ := data_split h
  have hsize : (entryHeader F p key e).asBytes.length = EntryHeader.size F := by
    rw [EntryHeader.length_asBytes, entryHeader, F.values.length_header, EntryHeader.size]
  have hcut : (encodeBlock F es).data =
      front ++ ((entryHeader F p key e).asBytes ++ (suffix ++ (body ++ back))) := by
    rw [hdata, entryBytes]
    simp only [List.append_assoc, p, suffix, body]
  have hcut' : (encodeBlock F es).data =
      (front ++ (entryHeader F p key e).asBytes) ++ (suffix ++ (body ++ back)) := by
    rw [hcut, List.append_assoc]
  have hcut'' : (encodeBlock F es).data =
      (front ++ (entryHeader F p key e).asBytes ++ suffix) ++ (body ++ back) := by
    rw [hcut', List.append_assoc _ suffix]
  refine ⟨?_, ?_, ?_⟩
  · rw [hcut]
    exact sliceRange_append hfront (by rw [hsize])
  · rw [hcut']
    exact sliceRange_append (by rw [List.length_append, hfront, hsize]) rfl
  · rw [hcut'']
    exact sliceRange_append (by rw [List.length_append, List.length_append, hfront, hsize]) rfl

theorem getEntryAtOffset_entryAt
    {i : Nat} {key previous : Key} {e : BlockEntry F.values.V}
    (hfits : Fits F es)
    (h : es[i]? = some (key, e))
    (hprevious : Continues F es i previous key) :
    (encodeBlock F es).getEntryAtOffset (offset (chunks F es) i) previous =
      .value (key, entryAt F es i) := by
  obtain ⟨hbytes, hsuffix, -⟩ := entry_slices h
  have hheader := refFromBytes_entryHeader hfits h
  have hsucc := offset_succ_eq h
  have hle := offset_le_length (chunks F es) (i + 1)
  have hshared := (prefixLenAt_le es i key).1
  have hstart := restartListStart_eq hfits
  unfold Continues at hprevious
  unfold Fits at hfits
  generalize prefixLenAt F es i key = p at *
  have hdrop : (key.data.drop p).length = key.len - p := List.length_drop
  have htake : sliceRange previous.data 0 p = .value (key.data.take p) := by
    have hlong : ¬ previous.data.length < p := by
      have hlengths := congrArg List.length hprevious
      rw [List.length_take, List.length_take] at hlengths
      have hkey : p ≤ key.data.length := hshared
      omega
    rw [sliceRange, if_neg (Nat.not_lt_zero p), if_neg hlong, List.drop_zero, Nat.sub_zero,
      hprevious]
  rw [DataBlock.getEntryAtOffset]
  dsimp only
  rw [if_neg (by omega), hbytes, Outcome.value_bind, hheader]
  dsimp only [entryHeader]
  rw [htake, Outcome.value_bind, hsuffix, Outcome.value_bind, F.values.bodyLen_header, hdrop,
    checkedSub_of_le (by omega), Outcome.value_bind, List.take_append_drop, ByteVec.ofList_data,
    entryAt, hsucc, u32_of_lt (by omega)]
  congr 3
  omega

/-- What is read of an entry is what was stored. -/
theorem read_entryAt
    (hfits : Fits F es)
    (h : es[i]? = some (key, e)) :
    (entryAt F es i).read = .value e := by
  obtain ⟨hbytes, -, hbody⟩ := entry_slices h
  have hheader := refFromBytes_entryHeader hfits h
  generalize prefixLenAt F es i key = p at *
  have hget : (entryAt F es i).getHeader = .value (entryHeader F p key e) := by
    rw [DataEntry.getHeader, entryAt, hbytes, Outcome.value_bind, hheader]
  have hdelete : WriteOp.deleteOp ≠ WriteOp.putOp := by decide
  rw [DataEntry.read, DataEntry.getType, DataEntry.getSequenceNumber, DataEntry.getValue, hget]
  simp only [Outcome.value_bind]
  cases e with
  | put seqNumber value =>
      simp only [entryHeader, BlockEntry.entryType, entryAt, BlockEntry.seqNumber, if_true,
        F.values.bodyLen_header, hbody, Outcome.value_bind, F.values.read_header_body]
      rfl
  | delete seqNumber =>
      simp only [entryHeader, BlockEntry.entryType, BlockEntry.seqNumber, if_neg hdelete,
        if_true, Outcome.value_bind]

/-! ## The restart list -/

theorem restartListLen_eq
    (hfits : Fits F es) :
    (encodeBlock F es).restartListLen = .value (numRestarts F es.length) := by
  have hlength := length_data es
  rw [DataBlock.restartListLen, restartListStart_eq hfits, hlength,
    checkedSub_of_le (Nat.le_add_right _ _), Outcome.value_bind, Nat.add_sub_cancel_left,
    if_neg (not_not.mpr (Nat.mul_mod_left _ _)), Nat.mul_div_cancel _ (by norm_num)]

theorem byteLen_eq
    (hfits : Fits F es) :
    (encodeBlock F es).byteLen = .value (offset (chunks F es) es.length) := by
  have hlength := length_data es
  have hend : offset (chunks F es) es.length = (chunks F es).flatten.length := by
    rw [← length_chunks es, offset_length]
  rw [DataBlock.byteLen, restartListStart_eq hfits, checkedSub_of_le (by omega),
    Outcome.value_bind, checkedSub_of_le (by omega), Outcome.value_bind,
    checkedSub_of_le (by omega), Outcome.value_bind, hend]
  unfold Fits at hfits
  rw [u32_of_lt (by omega)]
  congr 1
  omega

theorem getElem?_restarts
    {k : Nat}
    (hk : k < numRestarts F es.length) :
    (restarts F es)[k]? =
      some (headerLength F + offset (chunks F es) (k * F.blockRestartInterval)) := by
  rw [restarts, List.getElem?_map, List.getElem?_range hk]
  rfl

theorem getRestartOffset_eq
    {k : Nat}
    (hfits : Fits F es)
    (hk : k < numRestarts F es.length) :
    (encodeBlock F es).getRestartOffset k =
      .value (offset (chunks F es) (k * F.blockRestartInterval)) := by
  have hstart := restartListStart_eq hfits
  have hle := offset_le_length (chunks F es) (k * F.blockRestartInterval)
  unfold Fits at hfits
  have hchunk : (restartChunks F es)[k]? = some (encode 4 (u32 (headerLength F +
      offset (chunks F es) (k * F.blockRestartInterval)))) := by
    rw [restartChunks, List.getElem?_map, getElem?_restarts hk]
    rfl
  obtain ⟨front, back, hflatten, hfront⟩ := flatten_split hchunk
  rw [offset_restartChunks (Nat.le_of_lt hk)] at hfront
  have hdata : (encodeBlock F es).data =
      (dataBlockHeader F (headerLength F + (chunks F es).flatten.length) es.length
        (filterOf F es) ++ (chunks F es).flatten ++ front) ++
      (encode 4 (u32 (headerLength F + offset (chunks F es) (k * F.blockRestartInterval))) ++
        back) := by
    rw [List.append_assoc _ front, ← hflatten, List.append_assoc]
    rfl
  have hbytes : sliceRange (encodeBlock F es).data ((encodeBlock F es).restartListStart + k * 4)
      ((encodeBlock F es).restartListStart + k * 4 + 4) =
        .value (encode 4 (u32 (headerLength F +
          offset (chunks F es) (k * F.blockRestartInterval)))) := by
    rw [hdata]
    refine sliceRange_append ?_ ?_
    · rw [List.length_append, List.length_append, length_dataBlockHeader, hfront, hstart]
    · rw [encode_length]
  rw [DataBlock.getRestartOffset, hbytes, Outcome.value_bind, u32_of_lt (by omega),
    decode_encode 4 _ (lt_of_lt_of_eq (by omega) (by norm_num : 2 ^ 32 = 256 ^ 4)),
    checkedSub_of_le (Nat.le_add_right _ _), Nat.add_sub_cancel_left]

/-! ## Entries by index -/

/-- An entry and the one behind it. -/
theorem nextEntries_eq
    {i count : Nat} {key key' : Key} {e e' : BlockEntry F.values.V}
    (hfits : Fits F es)
    (h : es[i]? = some (key, e))
    (h' : es[i + count]? = some (key', e')) :
    (encodeBlock F es).nextEntries count (key, entryAt F es i) =
      .value (key', entryAt F es (i + count)) := by
  induction count generalizing i key e with
  | zero =>
      obtain ⟨rfl, rfl⟩ := Prod.mk.inj (Option.some.inj (h.symm.trans h'))
      rfl
  | succ count ih =>
      obtain ⟨⟨next, f⟩, hnext⟩ : ∃ entry, es[i + 1]? = some entry := by
        have hlt := (List.getElem?_eq_some_iff.mp h').1
        exact ⟨_, List.getElem?_eq_getElem (by omega)⟩
      have hcontinues : Continues F es (i + 1) key next := by
        have hprevious := continues_previousKey es (i + 1) next
        rwa [previousKey, h] at hprevious
      rw [DataBlock.nextEntries]
      dsimp only [entryAt]
      rw [getEntryAtOffset_entryAt hfits hnext hcontinues, Outcome.value_bind]
      rw [show i + (count + 1) = i + 1 + count by omega] at h' ⊢
      exact ih hnext h'

theorem lt_numRestarts_iff
    {k : Nat} :
    k < numRestarts F es.length ↔ k * F.blockRestartInterval < es.length :=
  lt_groups_iff F.interval_pos

theorem getEntryAtOffset_restart
    {k : Nat} {key : Key} {e : BlockEntry F.values.V}
    (hfits : Fits F es)
    (h : es[k * F.blockRestartInterval]? = some (key, e))
    (previous : Key) :
    (encodeBlock F es).getEntryAtOffset
        (offset (chunks F es) (k * F.blockRestartInterval)) previous =
      .value (key, entryAt F es (k * F.blockRestartInterval)) :=
  getEntryAtOffset_entryAt hfits h (continues_restart (Nat.mul_mod_left _ _) previous key)

/-- **The entry at an index.** -/
theorem getEntryAtIndex_eq
    (hfits : Fits F es)
    (h : es[i]? = some (key, e)) :
    (encodeBlock F es).getEntryAtIndex i = .value (key, entryAt F es i) := by
  have hlt := (List.getElem?_eq_some_iff.mp h).1
  have hdiv : i / F.blockRestartInterval * F.blockRestartInterval ≤ i := Nat.div_mul_le_self _ _
  obtain ⟨⟨first, f⟩, hfirst⟩ :
      ∃ entry, es[i / F.blockRestartInterval * F.blockRestartInterval]? = some entry :=
    ⟨_, List.getElem?_eq_getElem (by omega)⟩
  have hrestart := getRestartOffset_eq hfits (lt_numRestarts_iff.mpr (lt_of_le_of_lt hdiv hlt))
  have hinterval : (encodeBlock F es).restartInterval = F.blockRestartInterval := rfl
  have hsum : i / F.blockRestartInterval * F.blockRestartInterval +
      (i - i / F.blockRestartInterval * F.blockRestartInterval) = i :=
    Nat.add_sub_cancel' hdiv
  rw [DataBlock.getEntryAtIndex, hinterval, hrestart, Outcome.value_bind,
    getEntryAtOffset_restart hfits hfirst, Outcome.value_bind,
    nextEntries_eq hfits hfirst (hsum.symm ▸ h), hsum]

/-! ## A block that is loaded -/

/-- **A block read from its file** is the block that was built, with the interval of the session
that reads it. -/
theorem newFromData_encodeBlock
    (hfits : Fits F es)
    (restartInterval : Nat) :
    DataBlock.newFromData F (encodeBlock F es).data restartInterval =
      .value { encodeBlock F es with restartInterval := restartInterval } := by
  have hlength := length_data es
  have hcount := le_offset (chunks_ne_nil es) (le_refl (chunks F es).length)
  rw [offset_length, length_chunks] at hcount
  have hstart := restartListStart_eq hfits
  unfold Fits at hfits
  have hne : (encodeBlock F es).data ≠ [] := by
    rw [← List.length_pos_iff, hlength, headerLength]
    omega
  have hslice : sliceRange (encodeBlock F es).data 0 (headerLength F) =
      .value (dataBlockHeader F (headerLength F + (chunks F es).flatten.length) es.length
        (filterOf F es)) := by
    rw [encodeBlock, ← List.nil_append (dataBlockHeader _ _ _ _ ++ _)]
    exact sliceRange_append rfl (by rw [length_dataBlockHeader, Nat.zero_add])
  obtain ⟨htake₁, hdrop₁⟩ := take_drop_encode 4 (headerLength F + (chunks F es).flatten.length)
    (encode 4 es.length ++ F.bloom.asSlice (filterOf F es))
  obtain ⟨htake₂, hdrop₂⟩ := take_drop_encode 4 es.length (F.bloom.asSlice (filterOf F es))
  rw [DataBlock.newFromData, if_neg hne, hslice, Outcome.value_bind, dataBlockHeader,
    show 8 = 4 + 4 from rfl, ← List.drop_drop, hdrop₁, hdrop₂, F.bloom.fromBytes_asSlice]
  dsimp only
  rw [htake₁, htake₂, decode_encode 4 _ (lt_of_lt_of_eq (by omega) (by norm_num : 2 ^ 32 = _)),
    decode_encode 4 _ (lt_of_lt_of_eq (by omega) (by norm_num : 2 ^ 32 = _)), ← hstart]
  rfl

end Blocks
end LsmStore
