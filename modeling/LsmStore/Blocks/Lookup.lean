import LsmStore.Blocks.Table

/-!
# Lookups in a table

A table that has been built keeps its files; the cache may have lost any of its
blocks, and the table itself may have been loaded from its file.  In every such
state a lookup returns the entry that was added for the key.
-/

namespace LsmStore
namespace Blocks

open Chunks

variable {F : Format}

/-- The index block and the data blocks are small enough for their offsets. -/
def SmallTable (F : Format) (entries : F.Entries)
    (t : SortedTable) : Prop :=
  SmallIndex t.index ∧ ∀ es ∈ split F.maxKeyBlockSize entries, SmallBlock F es

/-- The files of a table are as they were; what is still in the cache is as it was. -/
structure KeepsTable (t : SortedTable) (stored s : DataBlocks F) : Prop where
  indexFile : s.indexFiles t.identifier = stored.indexFiles t.identifier
  blockFile : ∀ pos id, t.index.getBlockId pos = .value id →
    s.blockFiles id = stored.blockFiles id
  cached : ∀ pos id, t.index.getBlockId pos = .value id →
    s.cache id = none ∨ s.cache id = stored.cache id

/-- After a restart nothing is in the cache. -/
def DataBlocks.reopened (s : DataBlocks F) : DataBlocks F :=
  { s with cache := fun _ => none }

namespace KeepsTable

variable {t : SortedTable} {stored s : DataBlocks F}

theorem refl
    (t : SortedTable) (stored : DataBlocks F) :
    KeepsTable t stored stored where
  indexFile := rfl
  blockFile := fun _ _ _ => rfl
  cached := fun _ _ _ => Or.inr rfl

theorem reopened
    (h : KeepsTable t stored s) :
    KeepsTable t stored s.reopened where
  indexFile := h.indexFile
  blockFile := h.blockFile
  cached := fun _ _ _ => Or.inl rfl

/-- A block may be loaded into the cache. -/
theorem load
    {id : UInt64} {block : DataBlock F}
    (h : KeepsTable t stored s)
    (hblock : stored.cache id = some block) :
    KeepsTable t stored { s with cache := Function.update s.cache id (some block) } where
  indexFile := h.indexFile
  blockFile := h.blockFile
  cached := by
    intro pos other hid
    by_cases hsame : other = id
    · subst hsame
      exact Or.inr ((Function.update_self _ _ _).trans hblock.symm)
    · have hold := h.cached pos other hid
      rw [← Function.update_of_ne hsame (some block) s.cache] at hold
      exact hold

end KeepsTable

/-! ## The blocks of the table -/

section Table

variable {entries : F.Entries}
  {blocks : List F.Entries} {es : F.Entries}
  {s₀ s : DataBlocks F} {identifier : UInt64} {minKey maxKey : Key} {pos : Nat}

/-- Identifiers are given out again only after 2^64 blocks. -/
theorem id_ne
    {first : UInt64} {i j : Nat}
    (hij : i < j)
    (hj : j < 2 ^ 64) :
    first + UInt64.ofNat i ≠ first + UInt64.ofNat j := by
  intro h
  have hofNat := congrArg UInt64.toNat (UInt64.add_right_inj first |>.mp h)
  rw [UInt64.toNat_ofNat_of_lt' (lt_trans hij hj), UInt64.toNat_ofNat_of_lt' hj] at hofNat
  omega

theorem storeAll_block
    (hcount : blocks.length < 2 ^ 64)
    (h : blocks[pos]? = some es) :
    (storeAll s₀ blocks).blockFiles (s₀.nextDataBlockId + UInt64.ofNat pos) =
        some (F.compression.compress (encodeBlock F es).data) ∧
      (storeAll s₀ blocks).cache (s₀.nextDataBlockId + UInt64.ofNat pos) =
        some (encodeBlock F es) := by
  induction blocks using List.reverseRecOn with
  | nil =>
      exact absurd h (by simp)
  | append_singleton blocks last ih =>
      rw [List.length_append, List.length_singleton] at hcount
      rw [storeAll_concat, DataBlocks.store, nextDataBlockId_storeAll]
      dsimp only
      by_cases hpos : pos < blocks.length
      · have hne : s₀.nextDataBlockId + UInt64.ofNat pos ≠
            s₀.nextDataBlockId + UInt64.ofNat blocks.length := id_ne hpos (by omega)
        rw [List.getElem?_append_left hpos] at h
        rw [Function.update_of_ne hne, Function.update_of_ne hne]
        exact ih (by omega) h
      · have hlast : pos = blocks.length := by
          have hlt := (List.getElem?_eq_some_iff.mp h).1
          rw [List.length_append, List.length_singleton] at hlt
          omega
        subst hlast
        rw [List.getElem?_concat_length] at h
        obtain rfl := Option.some.inj h
        exact ⟨Function.update_self _ _ _, Function.update_self _ _ _⟩

theorem getElem?_indexOf
    (first : UInt64)
    (h : blocks[pos]? = some es) :
    (indexOf first blocks)[pos]? = some (keyAt es 0, first + UInt64.ofNat pos) := by
  rw [indexOf, List.getElem?_mapIdx, h]
  rfl

theorem length_indexOf
    (first : UInt64) (blocks : List F.Entries) :
    (indexOf first blocks).length = blocks.length :=
  List.length_mapIdx

theorem length_lt_of_smallIndex
    {index : List (Key × UInt64)} {size : UInt64}
    (hindex : SmallIndex (encodeIndex index size minKey maxKey)) :
    index.length < 2 ^ 32 := by
  have hlength := length_encodeIndex index size minKey maxKey
  have hpad : index.length ≤ padOffset index.length := Nat.le_add_right _ _
  unfold SmallIndex at hindex
  omega

end Table

/-! ## A table that has been built -/

section Built

variable {entries : F.Entries} {es : F.Entries}
  {s₀ stored s : DataBlocks F} {t : SortedTable} {identifier : UInt64} {minKey maxKey : Key}
  {pos : Nat}

theorem built_eq
    (hbuilt : buildTable s₀ identifier minKey maxKey entries = .value (t, stored)) :
    t = tableOf identifier s₀.nextDataBlockId minKey maxKey (split F.maxKeyBlockSize entries) ∧
      stored = storeTable s₀ identifier minKey maxKey (split F.maxKeyBlockSize entries) := by
  rw [buildTable_eq] at hbuilt
  obtain ⟨ht, hstored⟩ := Prod.mk.inj (Outcome.value.inj hbuilt)
  exact ⟨ht.symm, hstored.symm⟩

section Small

variable (hbuilt : buildTable s₀ identifier minKey maxKey entries = .value (t, stored))
variable (hsmall : SmallTable F entries t)

include hbuilt hsmall

theorem numDataBlocks_built :
    t.index.numDataBlocks = .value (split F.maxKeyBlockSize entries).length := by
  obtain ⟨rfl, -⟩ := built_eq hbuilt
  exact (numDataBlocks_eq hsmall.1).trans (congrArg Outcome.value (length_indexOf _ _))

/-- The identifier of a block, as the index has it. -/
theorem getBlockId_built
    (h : (split F.maxKeyBlockSize entries)[pos]? = some es) :
    t.index.getBlockId pos = .value (s₀.nextDataBlockId + UInt64.ofNat pos) := by
  obtain ⟨rfl, -⟩ := built_eq hbuilt
  exact getBlockId_eq hsmall.1 (getElem?_indexOf _ h)

/-- **Getting a block** of the table, from the cache or from its file. -/
theorem getBlock_built
    (hkeeps : KeepsTable t stored s)
    (h : (split F.maxKeyBlockSize entries)[pos]? = some es) :
    ∃ s', s.getBlock (s₀.nextDataBlockId + UInt64.ofNat pos) = .value (encodeBlock F es, s') ∧
      KeepsTable t stored s' := by
  have hid := getBlockId_built hbuilt hsmall h
  obtain ⟨hfile, hcache⟩ :
      stored.blockFiles (s₀.nextDataBlockId + UInt64.ofNat pos) =
          some (F.compression.compress (encodeBlock F es).data) ∧
        stored.cache (s₀.nextDataBlockId + UInt64.ofNat pos) = some (encodeBlock F es) := by
    obtain ⟨rfl, rfl⟩ := built_eq hbuilt
    have hcount := length_lt_of_smallIndex hsmall.1
    rw [length_indexOf] at hcount
    exact storeAll_block (by omega) h
  rw [DataBlocks.getBlock]
  rcases hkeeps.cached pos _ hid with hnone | hsome
  · have hdata : (s.blockFiles (s₀.nextDataBlockId + UInt64.ofNat pos)).bind
        F.compression.decompress = some (encodeBlock F es).data := by
      rw [hkeeps.blockFile pos _ hid, hfile]
      exact F.compression.decompress_compress _
    rw [hnone, hdata]
    dsimp only
    rw [newFromData_encodeBlock (hsmall.2 es (List.mem_of_getElem? h)).fits, Outcome.value_bind]
    exact ⟨_, rfl, hkeeps.load hcache⟩
  · rw [hsome, hcache]
    exact ⟨s, rfl, hkeeps⟩

end Small

theorem load_built
    (hbuilt : buildTable s₀ identifier minKey maxKey entries = .value (t, stored))
    (hkeeps : KeepsTable t stored s) :
    SortedTable.load identifier s = .value t := by
  have hfile := hkeeps.indexFile
  obtain ⟨rfl, rfl⟩ := built_eq hbuilt
  have hdata : (s.indexFiles identifier).bind F.compression.decompress =
      some (tableOf identifier s₀.nextDataBlockId minKey maxKey
        (split F.maxKeyBlockSize entries)).index.data := by
    change s.indexFiles identifier = _ at hfile
    rw [hfile, storeTable]
    dsimp only
    rw [tableOf, Function.update_self]
    exact F.compression.decompress_compress _
  rw [SortedTable.load, hdata]
  rfl

/-! ## The entry of a key -/

variable {blocks : List F.Entries}

/-- What is in different blocks has different keys. -/
theorem lt_of_blocks
    (hsorted : blocks.flatten.Pairwise fun a b => a.1 < b.1)
    {i j : Nat} {front back : F.Entries}
    {a b : Key × BlockEntry F.values.V}
    (hij : i < j)
    (hfront : blocks[i]? = some front)
    (hback : blocks[j]? = some back)
    (ha : a ∈ front)
    (hb : b ∈ back) :
    a.1 < b.1 := by
  obtain ⟨hi, rfl⟩ := List.getElem?_eq_some_iff.mp hfront
  obtain ⟨hj, rfl⟩ := List.getElem?_eq_some_iff.mp hback
  exact List.pairwise_iff_getElem.mp (List.pairwise_flatten.mp hsorted).2 i j hi hj hij a ha b hb

theorem exists_first
    (h : es ≠ []) :
    ∃ e, (keyAt es 0, e) ∈ es :=
  mem_of_keyAt (List.length_pos_iff.mpr h) rfl

theorem keyAt_zero_le
    (hsorted : es.Pairwise fun a b => a.1 < b.1)
    {a : Key × BlockEntry F.values.V}
    (ha : a ∈ es) :
    keyAt es 0 ≤ a.1 := by
  obtain ⟨i, hget⟩ := List.mem_iff_getElem?.mp ha
  rw [← keyAt_eq hget]
  exact keyAt_le hsorted (Nat.zero_le i) (List.getElem?_eq_some_iff.mp hget).1

theorem indexOf_sorted
    (first : UInt64)
    (hne : ∀ es ∈ blocks, es ≠ [])
    (hsorted : blocks.flatten.Pairwise fun a b => a.1 < b.1) :
    (indexOf first blocks).Pairwise fun a b => a.1 < b.1 := by
  refine List.pairwise_iff_getElem.mpr fun i j hi hj hij => ?_
  rw [length_indexOf] at hi hj
  obtain ⟨front, hfront⟩ : ∃ es, blocks[i]? = some es := ⟨_, List.getElem?_eq_getElem hi⟩
  obtain ⟨back, hback⟩ : ∃ es, blocks[j]? = some es := ⟨_, List.getElem?_eq_getElem hj⟩
  have hleft := (List.getElem?_eq_some_iff.mp (getElem?_indexOf first hfront)).2
  have hright := (List.getElem?_eq_some_iff.mp (getElem?_indexOf first hback)).2
  obtain ⟨a, ha⟩ := exists_first (hne front (List.mem_of_getElem? hfront))
  obtain ⟨b, hb⟩ := exists_first (hne back (List.mem_of_getElem? hback))
  rw [hleft, hright]
  exact lt_of_blocks hsorted hij hfront hback ha hb

theorem exists_block
    {first : UInt64} {entry : Key × UInt64}
    (h : (indexOf first blocks)[pos]? = some entry) :
    ∃ es, blocks[pos]? = some es ∧ entry = (keyAt es 0, first + UInt64.ofNat pos) := by
  have hlt := (List.getElem?_eq_some_iff.mp h).1
  rw [length_indexOf] at hlt
  have hblock : blocks[pos]? = some blocks[pos] := List.getElem?_eq_getElem hlt
  exact ⟨_, hblock, Option.some.inj (h.symm.trans (getElem?_indexOf _ hblock))⟩

/-- A key belongs to the last block that does not begin behind it. -/
theorem exists_block_of_lastBelow
    {first : UInt64} {entry : Key × UInt64} {key : Key}
    (hne : ∀ es ∈ blocks, es ≠ [])
    (hsorted : blocks.flatten.Pairwise fun a b => a.1 < b.1)
    (hlast : LastBelow (indexOf first blocks) key entry) :
    ∃ pos es, blocks[pos]? = some es ∧ entry.2 = first + UInt64.ofNat pos ∧
      ∀ e, (key, e) ∈ blocks.flatten → (key, e) ∈ es := by
  obtain ⟨pos, hget, hbelow, hnext⟩ := hlast
  obtain ⟨es, hblock, rfl⟩ := exists_block hget
  refine ⟨pos, es, hblock, rfl, fun e hmem => ?_⟩
  obtain ⟨other, hother, hmem'⟩ := List.mem_flatten.mp hmem
  obtain ⟨q, hq⟩ := List.mem_iff_getElem?.mp hother
  rcases Nat.lt_trichotomy q pos with hbefore | rfl | hbehind
  · -- everything in an earlier block is in front of this one
    obtain ⟨f, hfirst⟩ := exists_first (hne es (List.mem_of_getElem? hblock))
    exact absurd (lt_of_blocks hsorted hbefore hq hblock hmem' hfirst) (not_lt.mpr hbelow)
  · rw [Option.some.inj (hblock.symm.trans hq)]
    exact hmem'
  · -- and a later block does not begin before the next one
    have hlt : pos + 1 < blocks.length := by
      have hlt := (List.getElem?_eq_some_iff.mp hq).1
      omega
    have hblock' : blocks[pos + 1]? = some blocks[pos + 1] := List.getElem?_eq_getElem hlt
    have hkey := hnext _ (getElem?_indexOf _ hblock')
    have hle : keyAt blocks[pos + 1] 0 ≤ key := by
      rcases Nat.eq_or_lt_of_le (Nat.succ_le_of_lt hbehind) with heq | hlater
      · rw [show blocks[pos + 1] = other from
          Option.some.inj (hblock'.symm.trans ((congrArg (blocks[·]?) heq).trans hq))]
        exact keyAt_zero_le ((List.pairwise_flatten.mp hsorted).1 other hother) hmem'
      · obtain ⟨f, hfirst⟩ := exists_first (hne _ (List.mem_of_getElem? hblock'))
        exact le_of_lt (lt_of_blocks hsorted hlater hblock' hq hfirst hmem')
    exact absurd hkey (not_lt.mpr hle)

theorem keyAt_head
    (hne : entries ≠ []) :
    keyAt entries 0 = (entries.head hne).1 := by
  rw [keyAt, ← List.head?_eq_getElem?, List.head?_eq_some_head hne]
  rfl

/-- The first key is in front of all keys, the last one behind them. -/
theorem key_mem_hull
    {key : Key} {e : BlockEntry F.values.V}
    (hne : entries ≠ [])
    (hsorted : entries.Pairwise fun a b => a.1 < b.1)
    (hmem : (key, e) ∈ entries) :
    (entries.head hne).1 ≤ key ∧ key ≤ (entries.getLast hne).1 := by
  obtain ⟨i, hget⟩ := List.mem_iff_getElem?.mp hmem
  have hlt := (List.getElem?_eq_some_iff.mp hget).1
  have hlast : keyAt entries (entries.length - 1) = (entries.getLast hne).1 := by
    rw [keyAt, ← List.getLast?_eq_getElem?, List.getLast?_eq_getLast_of_ne_nil hne]
    rfl
  rw [← keyAt_eq hget, ← keyAt_head hne, ← hlast]
  exact ⟨keyAt_le hsorted (Nat.zero_le i) hlt, keyAt_le hsorted (by omega) (by omega)⟩

theorem blockKeyAt_zero
    (first : UInt64)
    (hne : entries ≠ [])
    (hblocks : ∀ es ∈ blocks, es ≠ [])
    (hflatten : blocks.flatten = entries) :
    blockKeyAt (indexOf first blocks) 0 = (entries.head hne).1 := by
  cases blocks with
  | nil =>
      exact absurd hflatten.symm hne
  | cons es rest =>
      rw [blockKeyAt_eq (getElem?_indexOf first (List.getElem?_cons_zero)), ← keyAt_head hne]
      cases es with
      | nil =>
          exact absurd rfl (hblocks [] List.mem_cons_self)
      | cons entry es =>
          rw [← hflatten]
          rfl

/-- **A lookup in the table** in any state that has its files. -/
theorem get_built
    (hne : entries ≠ [])
    (hsorted : entries.Pairwise fun a b => a.1 < b.1)
    (hbuilt : buildTable s₀ identifier (entries.head hne).1 (entries.getLast hne).1 entries =
      .value (t, stored))
    (hsmall : SmallTable F entries t)
    (hkeeps : KeepsTable t stored s)
    (key : Key) :
    (∀ e, (key, e) ∈ entries → ∃ entry s', t.get s key = .value (some entry, s') ∧
      entry.read = .value e ∧ KeepsTable t stored s') ∧
    ((∀ e, (key, e) ∉ entries) → ∃ s', t.get s key = .value (none, s') ∧
      KeepsTable t stored s') := by
  have hflatten := flatten_split_eq F.maxKeyBlockSize entries
  have hblocks : ∀ es ∈ split F.maxKeyBlockSize entries, es ≠ [] := fun es => split_ne_nil
  have hsearch : ((key < (entries.head hne).1 ∨ (entries.getLast hne).1 < key) ∧
      t.index.binarySearch key = .value none) ∨
      ∃ entry, LastBelow (indexOf s₀.nextDataBlockId (split F.maxKeyBlockSize entries)) key entry ∧
        t.index.binarySearch key = .value (some entry.2) := by
    obtain ⟨rfl, -⟩ := built_eq hbuilt
    have hindex : indexOf s₀.nextDataBlockId (split F.maxKeyBlockSize entries) ≠ [] := by
      rw [← List.length_pos_iff, length_indexOf, List.length_pos_iff]
      intro hnil
      rw [hnil] at hflatten
      exact hne hflatten.symm
    exact binarySearch_index hsmall.1 hindex
      (indexOf_sorted _ hblocks (hflatten.symm ▸ hsorted))
      (blockKeyAt_zero _ hne hblocks hflatten) key
  rw [SortedTable.get]
  rcases hsearch with ⟨hout, hnone⟩ | ⟨entry, hlast, hid⟩
  · rw [hnone, Outcome.value_bind]
    refine ⟨fun e hmem => ?_, fun _ => ⟨s, rfl, hkeeps⟩⟩
    obtain ⟨hmin, hmax⟩ := key_mem_hull hne hsorted hmem
    rcases hout with hlt | hgt
    · exact absurd hlt (not_lt.mpr hmin)
    · exact absurd hgt (not_lt.mpr hmax)
  · obtain ⟨pos, es, hblock, hpos, honly⟩ :=
      exists_block_of_lastBelow hblocks (hflatten.symm ▸ hsorted) hlast
    obtain ⟨s', hget, hkeeps'⟩ := getBlock_built hbuilt hsmall hkeeps hblock
    have hes := List.mem_of_getElem? hblock
    have hsorted' : es.Pairwise fun a b => a.1 < b.1 :=
      (List.pairwise_flatten.mp (hflatten.symm ▸ hsorted)).1 es hes
    obtain ⟨hfound, hnone⟩ := getByKey_eq (hsmall.2 es hes).fits (hblocks es hes) hsorted' key
    rw [hflatten] at honly
    rw [hid, Outcome.value_bind]
    dsimp only
    rw [hpos, hget, Outcome.value_bind]
    dsimp only
    refine ⟨fun e hmem => ?_, fun habsent => ?_⟩
    · obtain ⟨i, hi⟩ := List.mem_iff_getElem?.mp (honly e hmem)
      rw [hfound i e hi, Outcome.value_bind]
      exact ⟨_, s', rfl, read_entryAt (hsmall.2 es hes).fits hi, hkeeps'⟩
    · have hnot : ∀ e, (key, e) ∉ es := fun e hmem =>
        habsent e (hflatten ▸ List.mem_flatten_of_mem hes hmem)
      rw [hnone hnot, Outcome.value_bind]
      exact ⟨s', rfl, hkeeps'⟩

/-- **Lookups are exact**: a table can always be built, and whatever the cache has kept of it
and however often it has been loaded since, it returns for a key the entry that was added, and
nothing for any other key. -/
theorem sorted_table_lookup_exact
    (s₀ : DataBlocks F) (identifier : UInt64) (entries : F.Entries)
    (hne : entries ≠ [])
    (hsorted : entries.Pairwise fun a b => a.1 < b.1) :
    ∃ t stored, buildTable s₀ identifier (entries.head hne).1 (entries.getLast hne).1 entries =
        .value (t, stored) ∧
      (SmallTable F entries t → ∀ s, KeepsTable t stored s →
        SortedTable.load identifier s = .value t ∧
        ∀ key,
          (∀ e, (key, e) ∈ entries → ∃ entry s', t.get s key = .value (some entry, s') ∧
            entry.read = .value e ∧ KeepsTable t stored s') ∧
          ((∀ e, (key, e) ∉ entries) → ∃ s', t.get s key = .value (none, s') ∧
            KeepsTable t stored s')) := by
  have hbuilt := buildTable_eq identifier (entries.head hne).1 (entries.getLast hne).1 s₀ entries
  refine ⟨_, _, hbuilt, fun hsmall s hkeeps => ⟨load_built hbuilt hkeeps, fun key => ?_⟩⟩
  exact get_built hne hsorted hbuilt hsmall hkeeps key

end Built

/-- Values in the blocks, without filters and compression. -/
def Format.basic (interval maxKeyBlockSize : Nat) (h : 0 < interval) : Format where
  bloom := BloomFormat.off
  compression := Compression.off
  values := ValueFormat.plain
  blockRestartInterval := interval
  maxKeyBlockSize := maxKeyBlockSize
  interval_pos := h

/-- No files yet. -/
def DataBlocks.empty (F : Format) : DataBlocks F :=
  ⟨fun _ => none, fun _ => none, fun _ => none, 1⟩

/-- Three entries, two in the first block; the deletion is found after a restart. -/
theorem sorted_table_lookup_exact_reopened :
    let F := Format.basic 2 2 (by decide)
    let key : List UInt8 → Key := ByteVec.ofList
    let entries : F.Entries :=
      [(key [1], .put 5 (ByteVec.ofList [7])), (key [1, 2], .delete 6),
        (key [3], .put 7 (ByteVec.ofList []))]
    ∃ t stored, buildTable (DataBlocks.empty F) 9 (key [1]) (key [3]) entries =
        .value (t, stored) ∧
      SmallTable F entries t ∧
      ∃ entry s', t.get stored.reopened (key [1, 2]) = .value (some entry, s') ∧
        entry.read = .value (.delete 6) := by
  intro F key entries
  have hne : entries ≠ [] := List.cons_ne_nil _ _
  have hsorted : entries.Pairwise fun a b => a.1 < b.1 := by decide
  obtain ⟨t, stored, hbuilt, hexact⟩ :=
    sorted_table_lookup_exact (DataBlocks.empty F) 9 entries hne hsorted
  have hsmall : SmallTable F entries t := by
    have hkeys : buildTable (DataBlocks.empty F) 9 (key [1]) (key [3]) entries =
        .value (t, stored) := hbuilt
    obtain ⟨rfl, -⟩ := built_eq hkeys
    unfold SmallTable SmallIndex SmallBlock
    decide +kernel
  obtain ⟨entry, s', hget, hread, -⟩ :=
    ((hexact hsmall _ (KeepsTable.refl t stored).reopened).2 (key [1, 2])).1 (.delete 6)
      (List.mem_cons_of_mem _ List.mem_cons_self)
  exact ⟨t, stored, hbuilt, hsmall, entry, s', hget, hread⟩

end Blocks
end LsmStore
