import LsmStore.Blocks.IndexBlock

/-!
# Reading an index block

What the reading functions return for an index block that is smaller than 2^32
bytes, and where the search for a key ends.
-/

namespace LsmStore
namespace Blocks

open LittleEndian Chunks

variable {index : List (Key × UInt64)} {size : UInt64} {minKey maxKey : Key}

/-- The block is small enough for its offsets. -/
def SmallIndex (b : IndexBlock) : Prop :=
  b.data.length < 2 ^ 32

theorem length_encodeIndex
    (index : List (Key × UInt64)) (size : UInt64) (minKey maxKey : Key) :
    (encodeIndex index size minKey maxKey).data.length =
      padOffset (IndexBlockHeader.length + minKey.len + maxKey.len) +
        padOffset index.length * 4 + (indexChunks index).flatten.length := by
  have hpad : index.length ≤ padOffset index.length := Nat.le_add_right _ _
  rw [encodeIndex, length_indexBuffer hpad, length_indexFront]

/-- The header and the two keys at the beginning. -/
theorem encodeIndex_split
    (index : List (Key × UInt64)) (size : UInt64) (minKey maxKey : Key) :
    ∃ back, (encodeIndex index size minKey maxKey).data =
      (IndexBlockHeader.mk size minKey.len maxKey.len index.length).asBytes ++
        (minKey.data ++ (maxKey.data ++ back)) := by
  refine ⟨List.replicate (computePadding ((IndexBlockHeader.mk size minKey.len maxKey.len
      index.length).asBytes ++ (minKey.data ++ maxKey.data)).length) 0 ++
    ((placeChunks ((indexFront index size minKey maxKey).length + padOffset index.length * 4)
      index).flatten ++ (List.replicate ((padOffset index.length - index.length) * 4) 0 ++
        (indexChunks index).flatten)), ?_⟩
  rw [encodeIndex, indexBuffer, indexFront, addPadding]
  simp only [List.append_assoc]

theorem IndexBlockHeader.refFromBytes_asBytes
    {h : IndexBlockHeader}
    (hmin : h.minKeyLen < 2 ^ 32)
    (hmax : h.maxKeyLen < 2 ^ 32)
    (hnum : h.numDataBlocks < 2 ^ 32)
    (rest : List UInt8) :
    refFromBytes (h.asBytes ++ rest) = h := by
  have hbytes : h.asBytes ++ rest = encode 8 h.size.toNat ++ (encode 4 h.minKeyLen ++
      (encode 4 h.maxKeyLen ++ (encode 4 h.numDataBlocks ++ (encode 4 0 ++ rest)))) := by
    simp only [asBytes, List.append_assoc]
  obtain ⟨htake₁, hdrop₁⟩ := take_drop_encode 8 h.size.toNat (encode 4 h.minKeyLen ++
    (encode 4 h.maxKeyLen ++ (encode 4 h.numDataBlocks ++ (encode 4 0 ++ rest))))
  obtain ⟨htake₂, hdrop₂⟩ := take_drop_encode 4 h.minKeyLen
    (encode 4 h.maxKeyLen ++ (encode 4 h.numDataBlocks ++ (encode 4 0 ++ rest)))
  obtain ⟨htake₃, hdrop₃⟩ := take_drop_encode 4 h.maxKeyLen
    (encode 4 h.numDataBlocks ++ (encode 4 0 ++ rest))
  obtain ⟨htake₄, -⟩ := take_drop_encode 4 h.numDataBlocks (encode 4 0 ++ rest)
  have hsize : h.size.toNat < 256 ^ 8 := lt_of_lt_of_eq h.size.toNat_lt (by norm_num)
  rw [refFromBytes, hbytes, show 16 = 8 + (4 + 4) from rfl, show 12 = 8 + 4 from rfl]
  simp only [← List.drop_drop, hdrop₁, hdrop₂, hdrop₃, htake₁, htake₂, htake₃, htake₄]
  rw [decode_encode 8 _ hsize, decode_encode 4 _ hmin, decode_encode 4 _ hmax,
    decode_encode 4 _ hnum, UInt64.ofNat_toNat]

section Header

variable (hsmall : SmallIndex (encodeIndex index size minKey maxKey))

include hsmall

theorem getHeader_eq :
    (encodeIndex index size minKey maxKey).getHeader =
      .value ⟨size, minKey.len, maxKey.len, index.length⟩ := by
  have hlength := length_encodeIndex index size minKey maxKey
  unfold SmallIndex at hsmall
  unfold padOffset IndexBlockHeader.length at hlength
  obtain ⟨back, hdata⟩ := encodeIndex_split index size minKey maxKey
  rw [IndexBlock.getHeader, if_neg (by unfold IndexBlockHeader.length; omega), hdata,
    IndexBlockHeader.refFromBytes_asBytes]
  · change minKey.len < 2 ^ 32
    omega
  · change maxKey.len < 2 ^ 32
    omega
  · change index.length < 2 ^ 32
    omega

theorem getMin_eq :
    (encodeIndex index size minKey maxKey).getMin = .value minKey := by
  obtain ⟨back, hdata⟩ := encodeIndex_split index size minKey maxKey
  have hslice : sliceRange (encodeIndex index size minKey maxKey).data IndexBlockHeader.length
      (IndexBlockHeader.length + minKey.len) = .value minKey.data := by
    rw [hdata]
    exact sliceRange_append (length_asBytes _) rfl
  rw [IndexBlock.getMin, getHeader_eq hsmall, Outcome.value_bind]
  dsimp only
  rw [hslice, Outcome.value_bind, ByteVec.ofList_data]

theorem getMax_eq :
    (encodeIndex index size minKey maxKey).getMax = .value maxKey := by
  obtain ⟨back, hdata⟩ := encodeIndex_split index size minKey maxKey
  rw [← List.append_assoc] at hdata
  have hslice : sliceRange (encodeIndex index size minKey maxKey).data
      (IndexBlockHeader.length + minKey.len)
      (IndexBlockHeader.length + minKey.len + maxKey.len) = .value maxKey.data := by
    rw [hdata]
    exact sliceRange_append (by rw [List.length_append, length_asBytes, ByteVec.len]) rfl
  rw [IndexBlock.getMax, getHeader_eq hsmall, Outcome.value_bind]
  dsimp only
  rw [hslice, Outcome.value_bind, ByteVec.ofList_data]

theorem numDataBlocks_eq :
    (encodeIndex index size minKey maxKey).numDataBlocks = .value index.length := by
  rw [IndexBlock.numDataBlocks, getHeader_eq hsmall, Outcome.value_bind]

theorem getSize_eq :
    (encodeIndex index size minKey maxKey).getSize = .value size.toNat := by
  rw [IndexBlock.getSize, getHeader_eq hsmall, Outcome.value_bind]

/-- The place of an index entry. -/
def indexPlace (index : List (Key × UInt64)) (minKey maxKey : Key) (pos : Nat) : Nat :=
  padOffset (IndexBlockHeader.length + minKey.len + maxKey.len) + padOffset index.length * 4 +
    offset (indexChunks index) pos

theorem getEntryOffset_eq
    {pos : Nat}
    (hpos : pos < index.length) :
    (encodeIndex index size minKey maxKey).getEntryOffset pos =
      .value (indexPlace index minKey maxKey pos) := by
  have hlength := length_encodeIndex index size minKey maxKey
  have hle := offset_le_length (indexChunks index) pos
  have hfront := length_indexFront index size minKey maxKey
  have hchunk : (placeChunks ((indexFront index size minKey maxKey).length +
      padOffset index.length * 4) index)[pos]? =
        some (encode 4 (u32 (indexPlace index minKey maxKey pos))) := by
    rw [placeChunks, List.getElem?_map, List.getElem?_range hpos, hfront]
    rfl
  obtain ⟨front, back, hflatten, hplace⟩ := flatten_split hchunk
  rw [offset_placeChunks (Nat.le_of_lt hpos)] at hplace
  have hdata : (encodeIndex index size minKey maxKey).data =
      (indexFront index size minKey maxKey ++ front) ++
        (encode 4 (u32 (indexPlace index minKey maxKey pos)) ++ (back ++
          (List.replicate ((padOffset index.length - index.length) * 4) 0 ++
            (indexChunks index).flatten))) := by
    rw [encodeIndex, indexBuffer, hflatten]
    simp only [List.append_assoc]
  have hindex : index.length < 2 ^ 32 ∧ indexPlace index minKey maxKey pos < 2 ^ 32 := by
    unfold SmallIndex at hsmall
    unfold indexPlace
    have hpad : index.length ≤ padOffset index.length := Nat.le_add_right _ _
    omega
  have hshort : ¬ (encode 4 (u32 (indexPlace index minKey maxKey pos)) ++ (back ++
      (List.replicate ((padOffset index.length - index.length) * 4) (0 : UInt8) ++
        (indexChunks index).flatten))).length < 4 := by
    rw [List.length_append, encode_length]
    omega
  rw [IndexBlock.getEntryOffset, getHeader_eq hsmall, Outcome.value_bind]
  dsimp only
  rw [u32_of_lt (lt_trans hpos hindex.1), if_neg (not_not.mpr hpos), hdata,
    sliceFrom_append (by rw [List.length_append, hfront, hplace]), Outcome.value_bind,
    if_neg hshort, (take_drop_encode 4 _ _).1, u32_of_lt hindex.2,
    decode_encode 4 _ (lt_of_lt_of_eq hindex.2 (by norm_num))]

end Header

theorem indexEntry_split
    {pos : Nat} {entry : Key × UInt64}
    (size : UInt64) (minKey maxKey : Key)
    (h : index[pos]? = some entry) :
    ∃ front back, (encodeIndex index size minKey maxKey).data =
        front ++ (indexEntryBytes entry ++ back) ∧
      front.length = indexPlace index minKey maxKey pos := by
  have hchunk : (indexChunks index)[pos]? = some (indexEntryBytes entry) := by
    rw [indexChunks, List.getElem?_map, h]
    rfl
  obtain ⟨front, back, hflatten, hfront⟩ := flatten_split hchunk
  have hpad : index.length ≤ padOffset index.length := Nat.le_add_right _ _
  refine ⟨indexFront index size minKey maxKey ++
    ((placeChunks ((indexFront index size minKey maxKey).length + padOffset index.length * 4)
      index).flatten ++ (List.replicate ((padOffset index.length - index.length) * 4) 0 ++
        front)), back, ?_, ?_⟩
  · rw [encodeIndex, indexBuffer, hflatten]
    simp only [List.append_assoc]
  · rw [List.length_append, List.length_append, List.length_append, length_indexFront,
      length_places, List.length_replicate, hfront, indexPlace]
    omega

theorem indexEntry_slices
    {pos : Nat} {entry : Key × UInt64}
    (size : UInt64) (minKey maxKey : Key)
    (h : index[pos]? = some entry) :
    let data := (encodeIndex index size minKey maxKey).data
    let place := indexPlace index minKey maxKey pos
    (∃ back, sliceFrom data place = .value (indexEntryBytes entry ++ back)) ∧
      sliceRange data place (place + indexEntryHeaderLen) =
        .value (encode 8 entry.2.toNat ++ (encode 4 entry.1.len ++ encode 4 0)) ∧
      sliceRange data (place + indexEntryHeaderLen)
        (place + indexEntryHeaderLen + entry.1.len) = .value entry.1.data := by
  intro data place
  obtain ⟨front, back, hsplit, hfront⟩ := indexEntry_split size minKey maxKey h
  have hdata : data = front ++ (indexEntryBytes entry ++ back) := hsplit
  have hparts : data = front ++ ((encode 8 entry.2.toNat ++ (encode 4 entry.1.len ++
      encode 4 0)) ++ (entry.1.data ++ back)) := by
    rw [hdata, indexEntryBytes]
    simp only [List.append_assoc]
  have hparts' : data = (front ++ (encode 8 entry.2.toNat ++ (encode 4 entry.1.len ++
      encode 4 0))) ++ (entry.1.data ++ back) := by
    rw [hparts, List.append_assoc front]
  have hheader : (encode 8 entry.2.toNat ++ (encode 4 entry.1.len ++ encode 4 0)).length =
      indexEntryHeaderLen := by
    simp only [List.length_append, encode_length]
    rfl
  refine ⟨⟨back, ?_⟩, ?_, ?_⟩
  · rw [hdata]
    exact sliceFrom_append hfront
  · rw [hparts]
    exact sliceRange_append hfront (by rw [hheader])
  · rw [hparts']
    exact sliceRange_append (by rw [List.length_append, hfront, hheader]) rfl

section Entry

variable (hsmall : SmallIndex (encodeIndex index size minKey maxKey))

include hsmall

theorem getBlockId_eq
    {pos : Nat} {entry : Key × UInt64}
    (h : index[pos]? = some entry) :
    (encodeIndex index size minKey maxKey).getBlockId pos = .value entry.2 := by
  obtain ⟨-, hslice, -⟩ := indexEntry_slices size minKey maxKey h
  rw [IndexBlock.getBlockId, getEntryOffset_eq hsmall (List.getElem?_eq_some_iff.mp h).1,
    Outcome.value_bind, hslice, Outcome.value_bind, (take_drop_encode 8 _ _).1,
    decode_encode 8 _ (lt_of_lt_of_eq entry.2.toNat_lt (by norm_num)), UInt64.ofNat_toNat]

theorem getBlockKey_eq
    {pos : Nat} {entry : Key × UInt64}
    (h : index[pos]? = some entry) :
    (encodeIndex index size minKey maxKey).getBlockKey pos = .value entry.1 := by
  obtain ⟨⟨back, hfrom⟩, -, hkey⟩ := indexEntry_slices size minKey maxKey h
  have hlen : entry.1.len < 2 ^ 32 := by
    have hchunk : (indexChunks index)[pos]? = some (indexEntryBytes entry) := by
      rw [indexChunks, List.getElem?_map, h]
      rfl
    have hsucc := offset_succ hchunk
    have hle := offset_le_length (indexChunks index) (pos + 1)
    have hlength := length_encodeIndex index size minKey maxKey
    have hentry : entry.1.len ≤ (indexEntryBytes entry).length := by
      simp only [indexEntryBytes, List.length_append, ByteVec.len]
      omega
    unfold SmallIndex at hsmall
    omega
  have hbytes : indexEntryBytes entry ++ back = encode 8 entry.2.toNat ++
      (encode 4 entry.1.len ++ (encode 4 0 ++ (entry.1.data ++ back))) := by
    simp only [indexEntryBytes, List.append_assoc]
  have hshort : ¬ (indexEntryBytes entry ++ back).length < indexEntryHeaderLen := by
    simp only [hbytes, List.length_append, encode_length, indexEntryHeaderLen]
    omega
  rw [IndexBlock.getBlockKey, getEntryOffset_eq hsmall (List.getElem?_eq_some_iff.mp h).1,
    Outcome.value_bind, hfrom, Outcome.value_bind, if_neg hshort, hbytes,
    (take_drop_encode 8 _ _).2, (take_drop_encode 4 _ _).1,
    decode_encode 4 _ (lt_of_lt_of_eq hlen (by norm_num))]
  dsimp only
  rw [hkey, Outcome.value_bind, ByteVec.ofList_data]

/-! ## The block of a key -/

/-- The first key of a data block. -/
def blockKeyAt (index : List (Key × UInt64)) (pos : Nat) : Key :=
  (index[pos]?.map Prod.fst).getD (ByteVec.ofList [])

end Entry

theorem blockKeyAt_eq
    {pos : Nat} {entry : Key × UInt64}
    (h : index[pos]? = some entry) :
    blockKeyAt index pos = entry.1 := by
  rw [blockKeyAt, h]
  rfl

/-- The comparisons of the binary search. -/
def blockCompare (index : List (Key × UInt64)) (key : Key) (pos : Nat) : Ordering :=
  keyCmp (blockKeyAt index pos) key

section Search

variable (hsmall : SmallIndex (encodeIndex index size minKey maxKey))

include hsmall

theorem searchLoop_index
    (key : Key)
    {fuel start stop : Nat}
    (hstop : stop < index.length)
    (hfuel : stop - start ≤ fuel + 1) :
    (encodeIndex index size minKey maxKey).searchLoop key (fuel + 1) start stop =
      .value (BinarySearch.search (blockCompare index key) fuel start stop) := by
  induction fuel generalizing start stop with
  | zero =>
      rw [IndexBlock.searchLoop, if_pos hfuel]
      rfl
  | succ fuel ih =>
      rw [IndexBlock.searchLoop, BinarySearch.search]
      split_ifs with hwindow
      · rfl
      · have hmid : start < start + (stop - start) / 2 ∧
            start + (stop - start) / 2 < stop := by omega
        dsimp only
        generalize start + (stop - start) / 2 = mid at hmid
        obtain ⟨entry, hentry⟩ : ∃ entry, index[mid]? = some entry :=
          ⟨_, List.getElem?_eq_getElem (lt_trans hmid.2 hstop)⟩
        rw [getBlockKey_eq hsmall hentry, Outcome.value_bind, blockCompare,
          blockKeyAt_eq hentry]
        cases keyCmp entry.1 key with
        | eq =>
            rfl
        | lt =>
            exact ih hstop (by omega)
        | gt =>
            exact ih (lt_trans hmid.2 hstop) (by omega)

/-- The entry is the last one whose key is not larger. -/
def LastBelow (index : List (Key × UInt64)) (key : Key) (entry : Key × UInt64) : Prop :=
  ∃ pos, index[pos]? = some entry ∧ entry.1 ≤ key ∧
    ∀ next, index[pos + 1]? = some next → key < next.1

/-- Among the entries from the first one on, there is no doubt where a key belongs. -/
theorem searchBlock_eq
    (hne : index ≠ [])
    (hsorted : index.Pairwise fun a b => a.1 < b.1)
    {key : Key}
    (hfirst : blockKeyAt index 0 ≤ key) :
    ∃ entry, LastBelow index key entry ∧
      (encodeIndex index size minKey maxKey).searchBlock key = .value entry.2 := by
  have hpos : 0 < index.length := List.length_pos_iff.mpr hne
  have hget : ∀ pos < index.length, ∃ entry, index[pos]? = some entry := fun pos hlt =>
    ⟨_, List.getElem?_eq_getElem hlt⟩
  have hloop : (encodeIndex index size minKey maxKey).searchLoop key (index.length - 1 + 1) 0
      (index.length - 1) = _ :=
    searchLoop_index hsmall key (by omega) (by omega)
  rw [Nat.sub_add_cancel hpos] at hloop
  have hcorrect := BinarySearch.search_correct (blockCompare index key)
    (Nat.zero_le (index.length - 1))
    (show index.length - 1 - 0 ≤ index.length - 1 + 1 by omega)
  rw [IndexBlock.searchBlock, getHeader_eq hsmall, Outcome.value_bind]
  dsimp only
  rw [checkedSub_of_le hpos, Outcome.value_bind, hloop, Outcome.value_bind]
  cases hfound : BinarySearch.search (blockCompare index key)
      (index.length - 1) 0 (index.length - 1) with
  | exact mid =>
      rw [hfound] at hcorrect
      obtain ⟨-, hmid, heq⟩ := hcorrect
      obtain ⟨entry, hentry⟩ := hget mid (by omega)
      have hkey : entry.1 = key := by
        rw [← blockKeyAt_eq hentry]
        exact (cmp_eq_eq_iff _ _).mp heq
      refine ⟨entry, ⟨mid, hentry, le_of_eq hkey, fun next hnext => ?_⟩,
        getBlockId_eq hsmall hentry⟩
      obtain ⟨hlt, rfl⟩ := List.getElem?_eq_some_iff.mp hentry
      obtain ⟨hlt', rfl⟩ := List.getElem?_eq_some_iff.mp hnext
      rw [← hkey]
      exact List.pairwise_iff_getElem.mp hsorted mid (mid + 1) hlt hlt' (Nat.lt_add_one mid)
  | window start stop =>
      rw [hfound] at hcorrect
      obtain ⟨-, hle, hstop, hnext, hlo, hhi⟩ := hcorrect
      obtain ⟨first, hstart⟩ := hget start (by omega)
      obtain ⟨last, hlast⟩ := hget stop (by omega)
      have hbelow : first.1 ≤ key := by
        rw [← blockKeyAt_eq hstart]
        rcases hlo with rfl | hlt
        · exact hfirst
        · exact le_of_lt ((cmp_eq_lt_iff _ _).mp hlt)
      dsimp only
      rw [getBlockKey_eq hsmall hstart, Outcome.value_bind, if_neg (not_lt.mpr hbelow),
        getBlockKey_eq hsmall hlast, Outcome.value_bind]
      by_cases hkey : last.1 ≤ key
      · rw [if_pos hkey]
        refine ⟨last, ⟨stop, hlast, hkey, fun next hnext' => ?_⟩, getBlockId_eq hsmall hlast⟩
        rcases hhi with hend | hgt
        · have hlt := (List.getElem?_eq_some_iff.mp hnext').1
          omega
        · have hgt' := (cmp_eq_gt_iff _ _).mp hgt
          rw [blockKeyAt_eq hlast] at hgt'
          exact absurd hkey (not_le.mpr hgt')
      · rw [if_neg hkey]
        refine ⟨first, ⟨start, hstart, hbelow, fun next hnext' => ?_⟩,
          getBlockId_eq hsmall hstart⟩
        -- the window has two places, since the keys at its ends differ
        have hstep : stop = start + 1 := by
          by_contra hother
          have hsame : stop = start := by omega
          rw [hsame, hstart] at hlast
          exact hkey (Option.some.inj hlast ▸ hbelow)
        rw [← hstep, hlast] at hnext'
        rw [← Option.some.inj hnext']
        exact not_le.mp hkey

/-- **The search** ends at the block the key belongs to, unless the key is outside of the
table. -/
theorem binarySearch_index
    (hne : index ≠ [])
    (hsorted : index.Pairwise fun a b => a.1 < b.1)
    (hfirst : blockKeyAt index 0 = minKey)
    (key : Key) :
    ((key < minKey ∨ maxKey < key) ∧
      (encodeIndex index size minKey maxKey).binarySearch key = .value none) ∨
    ∃ entry, LastBelow index key entry ∧
      (encodeIndex index size minKey maxKey).binarySearch key = .value (some entry.2) := by
  rw [IndexBlock.binarySearch, getMin_eq hsmall, Outcome.value_bind, getMax_eq hsmall]
  by_cases hmin : key < minKey
  · exact Or.inl ⟨Or.inl hmin, if_pos hmin⟩
  · rw [if_neg hmin, Outcome.value_bind]
    by_cases hmax : maxKey < key
    · exact Or.inl ⟨Or.inr hmax, if_pos hmax⟩
    · obtain ⟨entry, hentry, hblock⟩ :=
        searchBlock_eq hsmall hne hsorted (hfirst ▸ not_lt.mp hmin)
      refine Or.inr ⟨entry, hentry, ?_⟩
      rw [if_neg hmax, hblock, Outcome.value_bind]

/-- The search does not panic, and it returns nothing for the keys outside of the table only. -/
theorem binarySearch_eq_none_iff
    (hne : index ≠ [])
    (hsorted : index.Pairwise fun a b => a.1 < b.1)
    (hfirst : blockKeyAt index 0 = minKey)
    (key : Key) :
    (encodeIndex index size minKey maxKey).binarySearch key = .value none ↔
      key < minKey ∨ maxKey < key := by
  constructor
  · intro hnone
    rcases binarySearch_index hsmall hne hsorted hfirst key with
      ⟨houtside, -⟩ | ⟨entry, -, hsome⟩
    · exact houtside
    · rw [hsome] at hnone
      cases hnone
  · intro houtside
    rw [IndexBlock.binarySearch, getMin_eq hsmall, Outcome.value_bind, getMax_eq hsmall]
    by_cases hmin : key < minKey
    · exact if_pos hmin
    · rw [if_neg hmin, Outcome.value_bind, if_pos (houtside.resolve_left hmin)]

end Search

/-- In a sorted index, the entries that are not larger than a key are the first ones. -/
theorem LastBelow.getLast?_filter
    {key : Key} {entry : Key × UInt64}
    (h : LastBelow index key entry)
    (hsorted : index.Pairwise fun a b => a.1 < b.1) :
    (index.filter fun e => e.1 ≤ key).getLast? = some entry := by
  obtain ⟨pos, hpos, hle, hnext⟩ := h
  obtain ⟨hlt, hentry⟩ := List.getElem?_eq_some_iff.mp hpos
  have hpair := List.pairwise_iff_getElem.mp hsorted
  have hfront : (index.take pos).filter (fun e => e.1 ≤ key) = index.take pos := by
    refine List.filter_eq_self.mpr fun e he => ?_
    obtain ⟨i, hi, rfl⟩ := List.mem_take_iff_getElem.mp he
    have hbelow := hpair i pos (by omega) hlt (by omega)
    rw [hentry] at hbelow
    exact decide_eq_true (le_trans (le_of_lt hbelow) hle)
  have hback : (index.drop (pos + 1)).filter (fun e => e.1 ≤ key) = [] := by
    refine List.filter_eq_nil_iff.mpr fun e he hbelow => ?_
    obtain ⟨i, hi, rfl⟩ := List.mem_drop_iff_getElem.mp he
    have hgt := hnext _ (List.getElem?_eq_getElem (show pos + 1 < index.length by omega))
    have hge : index[pos + 1].1 ≤ index[pos + 1 + i].1 := by
      rcases Nat.eq_zero_or_pos i with rfl | hi'
      · exact le_refl _
      · exact le_of_lt (hpair (pos + 1) (pos + 1 + i) (by omega) (by omega) (by omega))
    exact absurd (of_decide_eq_true hbelow) (not_le.mpr (lt_of_lt_of_le hgt hge))
  have hsplit : index = index.take pos ++ (entry :: index.drop (pos + 1)) := by
    rw [← hentry, ← List.drop_eq_getElem_cons hlt, List.take_append_drop]
  rw [hsplit, List.filter_append, List.filter_cons, hfront, hback,
    if_pos (decide_eq_true hle), List.getLast?_append_cons]
  rfl

/-- **Codec and search of index blocks.**  What the reading functions return for a block that
`new` wrote is what `new` was given, and the search returns the block of the last entry whose
key is not larger than the one searched for. -/
theorem index_block_reads_back
    (index : List (Key × UInt64)) (size : UInt64) (minKey maxKey : Key)
    (hsorted : index.Pairwise fun a b => a.1 < b.1)
    (hfirst : index.head?.map Prod.fst = some minKey)
    (hbuilt : ∀ b, IndexBlock.build index size minKey maxKey = .value b →
      b.data.length < 2 ^ 32) :
    ∃ b, IndexBlock.build index size minKey maxKey = .value b ∧
      b.getMin = .value minKey ∧ b.getMax = .value maxKey ∧
      b.getSize = .value size.toNat ∧ b.numDataBlocks = .value index.length ∧
      (∀ i entry, index[i]? = some entry →
        b.getBlockKey i = .value entry.1 ∧ b.getBlockId i = .value entry.2) ∧
      ∀ key,
        (b.binarySearch key = .value none ↔ key < minKey ∨ maxKey < key) ∧
        (¬ (key < minKey ∨ maxKey < key) →
          ∃ entry, (index.filter fun e => e.1 ≤ key).getLast? = some entry ∧
            b.binarySearch key = .value (some entry.2)) := by
  have hsmall : SmallIndex (encodeIndex index size minKey maxKey) :=
    hbuilt _ (build_eq index size minKey maxKey)
  have hkey : blockKeyAt index 0 = minKey := by
    rw [blockKeyAt, ← List.head?_eq_getElem?, hfirst]
    rfl
  have hne : index ≠ [] := by
    rintro rfl
    cases hfirst
  refine ⟨_, build_eq index size minKey maxKey, getMin_eq hsmall, getMax_eq hsmall,
    getSize_eq hsmall, numDataBlocks_eq hsmall, ?_, ?_⟩
  · intro i entry hentry
    exact ⟨getBlockKey_eq hsmall hentry, getBlockId_eq hsmall hentry⟩
  · intro key
    have hnone := binarySearch_eq_none_iff hsmall hne hsorted hkey key
    refine ⟨hnone, fun hinside => ?_⟩
    rcases binarySearch_index hsmall hne hsorted hkey key with
      ⟨houtside, -⟩ | ⟨entry, hentry, hsome⟩
    · exact absurd houtside hinside
    · exact ⟨entry, hentry.getLast?_filter hsorted, hsome⟩

/-- Two data blocks. -/
theorem index_block_reads_back_two :
    let index : List (Key × UInt64) := [(ByteVec.ofList [1], 7), (ByteVec.ofList [3], 4)]
    ∃ b, IndexBlock.build index 100 (ByteVec.ofList [1]) (ByteVec.ofList [5]) = .value b ∧
      b.binarySearch (ByteVec.ofList [2]) = .value (some 7) ∧
      b.binarySearch (ByteVec.ofList [5, 0]) = .value none := by
  intro index
  obtain ⟨b, hb, -, -, -, -, -, hsearch⟩ :=
    index_block_reads_back index 100 (ByteVec.ofList [1]) (ByteVec.ofList [5])
      (by decide) rfl (by
        intro b hb
        rw [build_eq] at hb
        cases hb
        rw [length_encodeIndex]
        decide)
  refine ⟨b, hb, ?_, (hsearch _).1.mpr (by decide)⟩
  obtain ⟨entry, hentry, hsome⟩ := (hsearch (ByteVec.ofList [2])).2 (by decide)
  cases hentry
  exact hsome

end Blocks
end LsmStore
