import LsmStore.Lib.Chunks
import LsmStore.SortedTable

/-!
# Writing a table to disk

`TableBuilder` collects entries in a data block, writes the block when it has
`max_key_block_size` entries, and writes the index block when it is finished.
Every write may fail; then the builder is dropped and the error is passed on.

What a block looks like in its file is not modelled: a block is the list of its
entries.  The number of writes a table takes is known beforehand, and building
it fails exactly if one of them does.
-/

namespace LsmStore

/-- The files of the blocks: how many entries a data block has, where it is stored, the
identifier of the next one, and the error of each write to come, if it fails. -/
structure BlockStore where
  maxKeyBlockSize : Nat
  dataBlockPath : Nat → String
  nextDataBlockId : Nat
  write : Nat → Option String

/-- A data block with at least one entry, and the key it will have in the index. -/
structure OpenBlock where
  indexKey : Key
  entries : Entries
  nonempty : entries ≠ []

/-- `index_key` is set exactly while the data block has entries, so both are in `dataBlock`.
`blocks` are the data blocks on disk. -/
structure TableBuilder where
  identifier : Nat
  minKey : Key
  maxKey : Key
  dataBlock : Option OpenBlock
  blockIndex : List (Key × Nat)
  blocks : List Entries

namespace OpenBlock

/-- The entries of a block that may be empty. -/
def toList : Option OpenBlock → Entries
  | none => []
  | some block => block.entries

/-- One more entry; the first one gives the block its key. -/
def add (key : Key) (entry : MemtableEntry) : Option OpenBlock → OpenBlock
  | none => ⟨key, [(key, entry)], by simp⟩
  | some block => ⟨block.indexKey, block.entries ++ [(key, entry)], by simp⟩

theorem entries_add
    (key : Key) (entry : MemtableEntry) (block : Option OpenBlock) :
    (add key entry block).entries = toList block ++ [(key, entry)] := by
  cases block <;> rfl

end OpenBlock

namespace TableBuilder

open OpenBlock

def new (identifier : Nat) (minKey maxKey : Key) : TableBuilder where
  identifier := identifier
  minKey := minKey
  maxKey := maxKey
  dataBlock := none
  blockIndex := []
  blocks := []

/-- `DataBlockBuilder::finish`, and the new entry of the index. -/
def finishBlock (store : BlockStore) (b : TableBuilder) (block : OpenBlock) :
    Except Error TableBuilder :=
  let id := store.nextDataBlockId + b.blocks.length
  match store.write b.blocks.length with
  | some err =>
      .error (.io ("Failed to write data block at `" ++ store.dataBlockPath id ++ "`") err)
  | none =>
      .ok { b with
        dataBlock := none
        blockIndex := b.blockIndex ++ [(block.indexKey, id)]
        blocks := b.blocks ++ [block.entries] }

def addEntry (store : BlockStore) (b : TableBuilder) (key : Key) (entry : MemtableEntry) :
    Except Error TableBuilder :=
  let block := add key entry b.dataBlock
  if store.maxKeyBlockSize ≤ block.entries.length then finishBlock store b block
  else .ok { b with dataBlock := some block }

def addValue (store : BlockStore) (b : TableBuilder) (key : Key) (seqNumber : Nat)
    (value : Value) : Except Error TableBuilder :=
  b.addEntry store key (.value seqNumber value)

def addDeletion (store : BlockStore) (b : TableBuilder) (key : Key) (seqNumber : Nat) :
    Except Error TableBuilder :=
  b.addEntry store key (.deletion seqNumber)

/-- What the merge loop of a compaction does with the entry it has found. -/
def addMerged (store : BlockStore) (b : TableBuilder) (key : Key) :
    MemtableEntry → Except Error TableBuilder
  | .value seqNumber value => b.addValue store key seqNumber value
  | .deletion seqNumber => b.addDeletion store key seqNumber

/-- `IndexBlock::new` writes the index. -/
def writeIndex (store : BlockStore) (b : TableBuilder) : Except Error TableBuilder :=
  match store.write b.blocks.length with
  | some err => .error (.io "Failed to write index block" err)
  | none => .ok b

def finish (store : BlockStore) (b : TableBuilder) : Except Error TableBuilder :=
  match b.dataBlock with
  | none => writeIndex store b
  | some block =>
      match finishBlock store b block with
      | .error e => .error e
      | .ok b => writeIndex store b

/-- Add entries one after the other; the first error ends the loop. -/
def addEntries (store : BlockStore) : Entries → TableBuilder →
    Except Error TableBuilder
  | [], b => .ok b
  | (key, entry) :: entries, b =>
      match b.addMerged store key entry with
      | .error e => .error e
      | .ok b => addEntries store entries b

/-- A whole table. -/
def build (store : BlockStore) (identifier : Nat) (minKey maxKey : Key)
    (entries : Entries) : Except Error TableBuilder :=
  match addEntries store entries (new identifier minKey maxKey) with
  | .error e => .error e
  | .ok b => b.finish store

/-! ## What the builder does not change -/

/-- What a builder was created with. -/
def label (b : TableBuilder) : Nat × Key × Key :=
  (b.identifier, b.minKey, b.maxKey)

section Label

variable {store : BlockStore} {b b' : TableBuilder}

theorem label_finishBlock
    {block : OpenBlock}
    (h : finishBlock store b block = .ok b') :
    b'.label = b.label := by
  unfold finishBlock at h
  dsimp only at h
  split at h
  · cases h
  · cases h
    rfl

theorem label_addMerged
    {key : Key} {entry : MemtableEntry}
    (h : b.addMerged store key entry = .ok b') :
    b'.label = b.label := by
  have hadd : b.addEntry store key entry = .ok b' := by
    cases entry <;> exact h
  unfold addEntry at hadd
  dsimp only at hadd
  split_ifs at hadd with hfull
  · exact label_finishBlock hadd
  · cases hadd
    rfl

theorem label_addEntries
    {entries : Entries}
    (h : addEntries store entries b = .ok b') :
    b'.label = b.label := by
  induction entries generalizing b with
  | nil =>
      cases h
      rfl
  | cons e entries ih =>
      rw [addEntries] at h
      cases hadd : b.addMerged store e.1 e.2 with
      | error err =>
          rw [hadd] at h
          cases h
      | ok b₁ =>
          rw [hadd] at h
          exact (ih h).trans (label_addMerged hadd)

theorem label_finish
    (h : b.finish store = .ok b') :
    b'.label = b.label := by
  have hindex : ∀ {b₁ : TableBuilder}, writeIndex store b₁ = .ok b' → b' = b₁ := by
    intro b₁ hwrite
    unfold writeIndex at hwrite
    split at hwrite
    · cases hwrite
    · cases hwrite
      rfl
  unfold finish at h
  split at h
  · rw [hindex h]
  · split at h
    · cases h
    · rename_i b₁ hblock
      rw [hindex h]
      exact label_finishBlock hblock

theorem label_build
    {identifier : Nat} {minKey maxKey : Key} {entries : Entries}
    (h : build store identifier minKey maxKey entries = .ok b') :
    b'.label = (identifier, minKey, maxKey) := by
  unfold build at h
  split at h
  · cases h
  · rename_i b₁ hentries
    exact (label_finish h).trans (label_addEntries hentries)

end Label

/-! ## When building fails -/

section Spec

variable {store : BlockStore}

/-- The number of entries with which a data block is written. -/
def blockSize (store : BlockStore) : Nat :=
  max store.maxKeyBlockSize 1

/-- The number of data blocks of a table. -/
def numBlocks (store : BlockStore) (count : Nat) : Nat :=
  (count + blockSize store - 1) / blockSize store

theorem blockSize_pos
    (store : BlockStore) :
    0 < blockSize store :=
  lt_of_lt_of_le Nat.one_pos (le_max_right _ _)

theorem addMerged_eq
    (b : TableBuilder) (key : Key) (entry : MemtableEntry) :
    b.addMerged store key entry = b.addEntry store key entry := by
  cases entry <;> rfl

/-- All entries the builder was given. -/
def contents (b : TableBuilder) : Entries :=
  b.blocks.flatten ++ toList b.dataBlock

theorem finishBlock_ok
    {b : TableBuilder}
    (block : OpenBlock)
    (h : store.write b.blocks.length = none) :
    ∃ b', finishBlock store b block = .ok b' ∧ b'.dataBlock = none ∧
      b'.blocks = b.blocks ++ [block.entries] := by
  simp only [finishBlock, h]
  exact ⟨_, rfl, rfl, rfl⟩

theorem finishBlock_error
    {b : TableBuilder}
    (block : OpenBlock)
    (h : store.write b.blocks.length ≠ none) :
    ∃ e, finishBlock store b block = .error e := by
  obtain ⟨err, herr⟩ := Option.ne_none_iff_exists'.mp h
  simp only [finishBlock, herr]
  exact ⟨_, rfl⟩

/-- A new entry stays in the open block, or it completes the block, which is written. -/
theorem addMerged_cases
    (b : TableBuilder) (key : Key) (entry : MemtableEntry)
    (hopen : (toList b.dataBlock).length < blockSize store) :
    (∃ b', b.addMerged store key entry = .ok b' ∧ b'.blocks = b.blocks ∧
        toList b'.dataBlock = toList b.dataBlock ++ [(key, entry)] ∧
        (toList b.dataBlock).length + 1 < blockSize store) ∨
      ((toList b.dataBlock).length + 1 = blockSize store ∧
        ((store.write b.blocks.length = none ∧
            ∃ b', b.addMerged store key entry = .ok b' ∧ b'.dataBlock = none ∧
              b'.blocks = b.blocks ++ [toList b.dataBlock ++ [(key, entry)]]) ∨
          (store.write b.blocks.length ≠ none ∧
            ∃ e, b.addMerged store key entry = .error e))) := by
  have hlength : (add key entry b.dataBlock).entries.length =
      (toList b.dataBlock).length + 1 := by
    rw [entries_add, List.length_append]
    rfl
  rw [addMerged_eq, addEntry]
  unfold blockSize at hopen ⊢
  split_ifs with hfull
  · right
    refine ⟨by omega, ?_⟩
    rw [← entries_add key entry b.dataBlock]
    by_cases hwrite : store.write b.blocks.length = none
    · exact Or.inl ⟨hwrite, finishBlock_ok _ hwrite⟩
    · exact Or.inr ⟨hwrite, finishBlock_error _ hwrite⟩
  · left
    refine ⟨_, rfl, rfl, entries_add key entry b.dataBlock, ?_⟩
    omega

/-- The loop over the entries: if the writes it takes succeed, it has written all the full
blocks; if one of them fails, so does the loop. -/
theorem addEntries_spec
    (store : BlockStore) (entries : Entries)
    {b : TableBuilder}
    (hopen : (toList b.dataBlock).length < blockSize store) :
    ((∀ k < ((toList b.dataBlock).length + entries.length) / blockSize store,
        store.write (b.blocks.length + k) = none) →
      ∃ b', addEntries store entries b = .ok b' ∧
        b'.blocks.length = b.blocks.length +
          ((toList b.dataBlock).length + entries.length) / blockSize store ∧
        (toList b'.dataBlock).length =
          ((toList b.dataBlock).length + entries.length) % blockSize store ∧
        b'.contents = b.contents ++ entries) ∧
    ((∃ k < ((toList b.dataBlock).length + entries.length) / blockSize store,
        store.write (b.blocks.length + k) ≠ none) →
      ∃ e, addEntries store entries b = .error e) := by
  have hpos := blockSize_pos store
  induction entries generalizing b with
  | nil =>
      rw [List.length_nil, Nat.add_zero, Nat.div_eq_of_lt hopen, Nat.mod_eq_of_lt hopen]
      refine ⟨fun _ => ⟨b, rfl, rfl, rfl, (List.append_nil _).symm⟩, ?_⟩
      rintro ⟨k, hk, -⟩
      exact absurd hk (Nat.not_lt_zero k)
  | cons e entries ih =>
      obtain ⟨key, entry⟩ := e
      rw [addEntries]
      rcases addMerged_cases b key entry hopen with
        ⟨b', hadd, hblocks, hblock, hroom⟩ | ⟨hfull, hwrite⟩
      · have hlength : (toList b'.dataBlock).length = (toList b.dataBlock).length + 1 := by
          rw [hblock, List.length_append]
          rfl
        have hcontents : b'.contents = b.contents ++ [(key, entry)] := by
          rw [contents, contents, hblocks, hblock, List.append_assoc]
        have hnext := ih (hlength ▸ hroom)
        rw [hlength, hblocks, Nat.add_right_comm, Nat.add_assoc] at hnext
        rw [hadd, List.length_cons]
        simpa only [hcontents, List.append_assoc, List.singleton_append] using hnext
      · have hcount : ((toList b.dataBlock).length + (entries.length + 1)) / blockSize store =
            entries.length / blockSize store + 1 := by
          rw [← Nat.add_div_right _ hpos, ← hfull]
          congr 1
          omega
        have hmod : ((toList b.dataBlock).length + (entries.length + 1)) % blockSize store =
            entries.length % blockSize store := by
          rw [← Nat.add_mod_right entries.length, ← hfull]
          congr 1
          omega
        rw [List.length_cons, hcount, hmod]
        rcases hwrite with ⟨hnone, b', hadd, hblock, hblocks⟩ | ⟨hsome, err, hadd⟩
        · have hempty : toList b'.dataBlock = [] := by
            rw [hblock]
            rfl
          have hlength : b'.blocks.length = b.blocks.length + 1 := by
            rw [hblocks, List.length_append]
            rfl
          have hcontents : b'.contents = b.contents ++ [(key, entry)] := by
            rw [contents, contents, hempty, hblocks]
            simp
          have hnext := ih (b := b') (by rw [hempty]; exact hpos)
          rw [hempty, List.length_nil, Nat.zero_add, hlength] at hnext
          rw [hadd]
          constructor
          · intro hall
            obtain ⟨b'', hrest, hlen, hopen', hall'⟩ := hnext.1 (by
              intro k hk
              rw [Nat.add_assoc, Nat.add_comm 1]
              exact hall (k + 1) (Nat.succ_lt_succ hk))
            refine ⟨b'', hrest, by omega, hopen', ?_⟩
            rw [hall', hcontents, List.append_assoc, List.singleton_append]
          · rintro ⟨k, hk, hfail⟩
            cases k with
            | zero =>
                exact absurd hnone hfail
            | succ k =>
                refine hnext.2 ⟨k, Nat.lt_of_succ_lt_succ hk, ?_⟩
                rw [Nat.add_assoc, Nat.add_comm 1]
                exact hfail
        · rw [hadd]
          refine ⟨fun hall => absurd (hall 0 (Nat.succ_pos _)) hsome, fun _ => ⟨err, rfl⟩⟩

/-- The number of data blocks is the number of full blocks, and one more if entries are left. -/
theorem numBlocks_eq
    (store : BlockStore) (count : Nat) :
    numBlocks store count =
      count / blockSize store + if count % blockSize store = 0 then 0 else 1 :=
  Chunks.groups_eq (blockSize_pos store) count

/-- `finish` takes one write for the open block, if there is one, and one for the index. -/
theorem finish_spec
    (store : BlockStore)
    {b : TableBuilder} {total : Nat}
    (htotal : total = b.blocks.length + if (toList b.dataBlock).length = 0 then 0 else 1) :
    ((∀ k, b.blocks.length ≤ k → k ≤ total → store.write k = none) →
      ∃ b', b.finish store = .ok b' ∧ b'.blocks.length = total ∧
        b'.blocks.flatten = b.contents) ∧
    ((∃ k, b.blocks.length ≤ k ∧ k ≤ total ∧ store.write k ≠ none) →
      ∃ e, b.finish store = .error e) := by
  have hindex : ∀ b' : TableBuilder, (store.write b'.blocks.length = none →
      writeIndex store b' = .ok b') ∧
      (store.write b'.blocks.length ≠ none → ∃ e, writeIndex store b' = .error e) := by
    intro b'
    refine ⟨fun h => by simp only [writeIndex, h], fun h => ?_⟩
    obtain ⟨err, herr⟩ := Option.ne_none_iff_exists'.mp h
    simp only [writeIndex, herr]
    exact ⟨_, rfl⟩
  unfold finish
  cases hblock : b.dataBlock with
  | none =>
      rw [hblock] at htotal
      obtain rfl : total = b.blocks.length := htotal
      constructor
      · intro hall
        refine ⟨b, (hindex b).1 (hall _ (le_refl _) (le_refl _)), rfl, ?_⟩
        rw [contents, hblock]
        exact (List.append_nil _).symm
      · rintro ⟨k, hle, hge, hfail⟩
        obtain rfl := Nat.le_antisymm hle hge
        exact (hindex b).2 hfail
  | some block =>
      have hne : block.entries.length ≠ 0 := fun h =>
        block.nonempty (List.length_eq_zero_iff.mp h)
      rw [hblock] at htotal
      obtain rfl : total = b.blocks.length + 1 := htotal.trans (by rw [toList, if_neg hne])
      dsimp only
      by_cases hwrite : store.write b.blocks.length = none
      · obtain ⟨b', hok, -, hblocks⟩ := finishBlock_ok block hwrite
        have hlength : b'.blocks.length = b.blocks.length + 1 := by
          rw [hblocks, List.length_append]
          rfl
        rw [hok]
        constructor
        · intro hall
          refine ⟨b', (hindex b').1 (hall _ (by omega) (by omega)), hlength, ?_⟩
          rw [contents, hblock, hblocks]
          simp [toList]
        · rintro ⟨k, hle, hge, hfail⟩
          refine (hindex b').2 ?_
          have hk : k = b'.blocks.length := by
            rcases Nat.eq_or_lt_of_le hle with rfl | hlt
            · exact absurd hwrite hfail
            · omega
          exact hk ▸ hfail
      · obtain ⟨e, herr⟩ := finishBlock_error block hwrite
        rw [herr]
        exact ⟨fun hall => absurd (hall _ (le_refl _) (Nat.le_succ _)) hwrite,
          fun _ => ⟨e, rfl⟩⟩

/-- **Building a table** takes one write for each of its data blocks and one for its index.
If they all succeed, the blocks hold the entries; if one of them fails, so does the call. -/
theorem build_spec
    (store : BlockStore) (identifier : Nat) (minKey maxKey : Key)
    (entries : Entries) :
    ((∀ k ≤ numBlocks store entries.length, store.write k = none) →
      ∃ b, build store identifier minKey maxKey entries = .ok b ∧
        b.blocks.length = numBlocks store entries.length ∧ b.blocks.flatten = entries) ∧
    ((∃ k ≤ numBlocks store entries.length, store.write k ≠ none) →
      ∃ e, build store identifier minKey maxKey entries = .error e) := by
  have hspec := addEntries_spec store entries
    (b := new identifier minKey maxKey) (blockSize_pos store)
  have hempty : toList (new identifier minKey maxKey).dataBlock = [] := rfl
  have hblocks : (new identifier minKey maxKey).blocks = [] := rfl
  simp only [hempty, hblocks, List.length_nil, Nat.zero_add] at hspec
  have htotal := numBlocks_eq store entries.length
  have hle : entries.length / blockSize store ≤ numBlocks store entries.length := by omega
  rw [build]
  by_cases hloop : ∀ k < entries.length / blockSize store, store.write k = none
  · obtain ⟨b, hok, hlen, hopen, hcontents⟩ := hspec.1 hloop
    have htotal' : numBlocks store entries.length =
        b.blocks.length + if (toList b.dataBlock).length = 0 then 0 else 1 := by
      rw [htotal, hlen, hopen]
    have hfinish := finish_spec store htotal'
    rw [hok]
    constructor
    · intro hall
      obtain ⟨b', hok', hlen', hflatten⟩ := hfinish.1 (fun k _ hk => hall k hk)
      refine ⟨b', hok', hlen', ?_⟩
      rw [hflatten, hcontents]
      rfl
    · rintro ⟨k, hk, hfail⟩
      refine hfinish.2 ⟨k, ?_, hk, hfail⟩
      rw [hlen]
      by_contra hlt
      exact hfail (hloop k (not_le.mp hlt))
  · push Not at hloop
    obtain ⟨e, herr⟩ := hspec.2 hloop
    rw [herr]
    refine ⟨fun hall => ?_, fun _ => ⟨e, rfl⟩⟩
    obtain ⟨k, hk, hfail⟩ := hloop
    exact absurd (hall k (by omega)) hfail

end Spec

end TableBuilder

end LsmStore
