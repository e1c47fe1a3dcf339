import LsmStore.Blocks.IndexSearch
import LsmStore.Blocks.Search

/-!
# Tables of blocks

`DataBlocks` is the state that tables share: the files, and the cache of data
blocks.  A table is its index block; a lookup searches the index, gets one data
block, and searches that.  `TableBuilder` distributes the entries it is given
over data blocks.

Writes to disk succeed here; what happens when they fail is treated with the
entry lists of blocks alone.  The cache may lose a block at any time.
-/

namespace LsmStore
namespace Blocks

open Chunks

/-- The files of data blocks and of index blocks, the cached data blocks, and the identifier of
the next data block, which is kept in the manifest. -/
structure DataBlocks (F : Format) where
  blockFiles : UInt64 → Option (List UInt8)
  indexFiles : UInt64 → Option (List UInt8)
  cache : UInt64 → Option (DataBlock F)
  nextDataBlockId : UInt64

namespace DataBlocks

variable {F : Format}

/-- The block is stored under the next identifier, in its file and in the cache. -/
def store (s : DataBlocks F) (block : DataBlock F) : DataBlocks F :=
  let id := s.nextDataBlockId
  { s with
    blockFiles := Function.update s.blockFiles id (some (F.compression.compress block.data))
    cache := Function.update s.cache id (some block)
    nextDataBlockId := id + 1 }

/-- `DataBlockBuilder::finish`. -/
def finishBlock (s : DataBlocks F) (b : DataBlockBuilder F) : Option UInt64 × DataBlocks F :=
  match b.finish with
  | none => (none, s)
  | some block => (some s.nextDataBlockId, s.store block)

/-- From the cache, or from its file. -/
def getBlock (s : DataBlocks F) (id : UInt64) : Outcome (DataBlock F × DataBlocks F) :=
  match s.cache id with
  | some block => .value (block, s)
  | none =>
      match (s.blockFiles id).bind F.compression.decompress with
      | none => .panic s!"Failed to load data block {id} from disk"
      | some data => do
          let block ← DataBlock.newFromData F data F.blockRestartInterval
          .value (block, { s with cache := Function.update s.cache id (some block) })

end DataBlocks

structure SortedTable where
  identifier : UInt64
  index : IndexBlock

namespace SortedTable

variable {F : Format}

def load (identifier : UInt64) (s : DataBlocks F) : Outcome SortedTable :=
  match (s.indexFiles identifier).bind F.compression.decompress with
  | none => .error (.io "Failed to read index block" notFound)
  | some data => .value ⟨identifier, ⟨data⟩⟩

def get (t : SortedTable) (s : DataBlocks F) (key : Key) :
    Outcome (Option (DataEntry F) × DataBlocks F) := do
  let blockId ← t.index.binarySearch key
  match blockId with
  | none => .value (none, s)
  | some id => do
      let (block, s) ← s.getBlock id
      let entry ← block.getByKey key
      .value (entry, s)

end SortedTable

/-! ## Building a table -/

structure TableBuilder (F : Format) where
  identifier : UInt64
  minKey : Key
  maxKey : Key
  dataBlock : DataBlockBuilder F
  blockIndex : List (Key × UInt64)
  lastKey : Key
  blockEntryCount : Nat
  size : UInt64
  restartCount : Nat
  indexKey : Option Key

namespace TableBuilder

variable {F : Format}

def new (F : Format) (identifier : UInt64) (minKey maxKey : Key) : TableBuilder F where
  identifier := identifier
  minKey := minKey
  maxKey := maxKey
  dataBlock := DataBlockBuilder.new F
  blockIndex := []
  lastKey := ByteVec.ofList []
  blockEntryCount := 0
  size := 0
  restartCount := 0
  indexKey := none

/-- The length of the shared part is found by comparing byte for byte; at a restart, nothing is
shared. -/
def addEntry (b : TableBuilder F) (s : DataBlocks F) (key : Key) (seqNumber : UInt64)
    (opType : UInt8) (value : F.values.V) : Outcome (TableBuilder F × DataBlocks F) := do
  let indexKey := b.indexKey.getD key
  let restart := b.restartCount = F.blockRestartInterval
  let prefixLen := if restart then 0 else sharedLen key.data b.lastKey.data
  let restartCount := (if restart then 0 else b.restartCount) + 1
  let blockEntryCount := b.blockEntryCount + 1
  let dataBlock ← b.dataBlock.addEntry prefixLen (key.data.drop prefixLen) key seqNumber opType
    value
  if F.maxKeyBlockSize ≤ blockEntryCount then
    match s.finishBlock dataBlock with
    | (none, _) => .panic "called `Option::unwrap()` on a `None` value"
    | (some id, s) =>
        .value
          ({ b with
              size := b.size + UInt64.ofNat dataBlock.currentSize
              dataBlock := DataBlockBuilder.new F
              blockIndex := b.blockIndex ++ [(indexKey, id)]
              blockEntryCount := 0
              restartCount := 0
              lastKey := ByteVec.ofList []
              indexKey := none }, s)
  else
    .value
      ({ b with
          dataBlock := dataBlock
          lastKey := key
          blockEntryCount := blockEntryCount
          restartCount := restartCount
          indexKey := some indexKey }, s)

def addValue (b : TableBuilder F) (s : DataBlocks F) (key : Key) (seqNumber : UInt64)
    (value : F.values.V) : Outcome (TableBuilder F × DataBlocks F) :=
  b.addEntry s key seqNumber WriteOp.putOp value

def addDeletion (b : TableBuilder F) (s : DataBlocks F) (key : Key) (seqNumber : UInt64) :
    Outcome (TableBuilder F × DataBlocks F) :=
  b.addEntry s key seqNumber WriteOp.deleteOp F.values.deletion

/-- The index block, and its file. -/
def finishIndex (b : TableBuilder F) (s : DataBlocks F) : Outcome (SortedTable × DataBlocks F) := do
  let index ← IndexBlock.build b.blockIndex b.size b.minKey b.maxKey
  let file := F.compression.compress index.data
  .value (⟨b.identifier, index⟩,
    { s with indexFiles := Function.update s.indexFiles b.identifier (some file) })

def finish (b : TableBuilder F) (s : DataBlocks F) : Outcome (SortedTable × DataBlocks F) :=
  match s.finishBlock b.dataBlock with
  | (none, s) => b.finishIndex s
  | (some id, s) =>
      match b.indexKey with
      | none => .panic "called `Option::unwrap()` on a `None` value"
      | some key =>
          { b with
            size := b.size + UInt64.ofNat b.dataBlock.currentSize
            blockIndex := b.blockIndex ++ [(key, id)]
            indexKey := none }.finishIndex s

/-- Entries are added as what they are. -/
def add (b : TableBuilder F) (s : DataBlocks F) (key : Key) :
    BlockEntry F.values.V → Outcome (TableBuilder F × DataBlocks F)
  | .put seqNumber value => b.addValue s key seqNumber value
  | .delete seqNumber => b.addDeletion s key seqNumber

def addAll (b : TableBuilder F) (s : DataBlocks F) :
    F.Entries → Outcome (TableBuilder F × DataBlocks F)
  | [] => .value (b, s)
  | (key, e) :: rest => do
      let (b, s) ← b.add s key e
      b.addAll s rest

end TableBuilder

/-- A table of some entries. -/
def buildTable {F : Format} (s : DataBlocks F) (identifier : UInt64) (minKey maxKey : Key)
    (entries : F.Entries) : Outcome (SortedTable × DataBlocks F) := do
  let (b, s) ← (TableBuilder.new F identifier minKey maxKey).addAll s entries
  b.finish s

/-! ## What the builder has done -/

section Build

variable {F : Format}

/-- The blocks are stored one after the other. -/
def storeAll (s : DataBlocks F) (blocks : List F.Entries) :
    DataBlocks F :=
  blocks.foldl (fun s es => s.store (encodeBlock F es)) s

/-- The index entries of blocks that are stored from an identifier on. -/
def indexOf (first : UInt64) (blocks : List F.Entries) :
    List (Key × UInt64) :=
  blocks.mapIdx fun i es => (keyAt es 0, first + UInt64.ofNat i)

def storedSize (blocks : List F.Entries) : UInt64 :=
  blocks.foldl (fun size es => size + UInt64.ofNat (builderOf F es).currentSize) 0

/-- How many entries there are since the last restart, if it is not zero. -/
def sinceRestart (F : Format) : Nat → Nat
  | 0 => 0
  | count + 1 => count % F.blockRestartInterval + 1

/-- The builder that has stored some blocks and has some more entries. -/
def tableBuilderOf (identifier first : UInt64) (minKey maxKey : Key)
    (s : List F.Entries × F.Entries) :
    TableBuilder F where
  identifier := identifier
  minKey := minKey
  maxKey := maxKey
  dataBlock := builderOf F s.2
  blockIndex := indexOf first s.1
  lastKey := previousKey F s.2 s.2.length
  blockEntryCount := s.2.length
  size := storedSize s.1
  restartCount := sinceRestart F s.2.length
  indexKey := s.2.head?.map Prod.fst

variable {blocks : List F.Entries}
  {es : F.Entries}

theorem nextDataBlockId_storeAll
    (s : DataBlocks F) (blocks : List F.Entries) :
    (storeAll s blocks).nextDataBlockId = s.nextDataBlockId + UInt64.ofNat blocks.length := by
  induction blocks using List.reverseRecOn with
  | nil =>
      exact (UInt64.add_zero _).symm
  | append_singleton blocks es ih =>
      rw [storeAll, List.foldl_concat, ← storeAll]
      change (storeAll s blocks).nextDataBlockId + 1 = _
      rw [ih, List.length_append, List.length_singleton, UInt64.ofNat_add, UInt64.add_assoc]
      rfl

theorem finishBlock_builderOf
    (s : DataBlocks F)
    (h : es ≠ []) :
    s.finishBlock (builderOf F es) = (some s.nextDataBlockId, s.store (encodeBlock F es)) := by
  rw [DataBlocks.finishBlock, finish_builderOf h]

theorem builderOf_nil
    (F : Format) :
    builderOf F [] = DataBlockBuilder.new F := by
  have hcount : numRestarts F 0 = 0 :=
    Nat.div_eq_of_lt (by have := F.interval_pos; omega)
  simp [builderOf, DataBlockBuilder.new, chunks, restarts, hcount, filterOf]

theorem indexOf_concat
    (first : UInt64) (blocks : List F.Entries)
    (es : F.Entries) :
    indexOf first (blocks ++ [es]) =
      indexOf first blocks ++ [(keyAt es 0, first + UInt64.ofNat blocks.length)] := by
  rw [indexOf, List.mapIdx_concat]
  rfl

theorem succ_mod_interval
    (F : Format) (count : Nat) :
    (count + 1) % F.blockRestartInterval =
      if count % F.blockRestartInterval + 1 = F.blockRestartInterval then 0
      else count % F.blockRestartInterval + 1 := by
  have hlt := Nat.mod_lt count F.interval_pos
  rw [← Nat.mod_add_mod]
  split_ifs with hfull
  · rw [hfull, Nat.mod_self]
  · exact Nat.mod_eq_of_lt (by omega)

theorem storedSize_concat
    (blocks : List F.Entries)
    (es : F.Entries) :
    storedSize (blocks ++ [es]) =
      storedSize blocks + UInt64.ofNat (builderOf F es).currentSize :=
  List.foldl_concat _ _ _ _

theorem storeAll_concat
    (s : DataBlocks F) (blocks : List F.Entries)
    (es : F.Entries) :
    storeAll s (blocks ++ [es]) = (storeAll s blocks).store (encodeBlock F es) :=
  List.foldl_concat _ _ _ _

/-- The builder counts up to a restart exactly if the next entry is one. -/
theorem sinceRestart_eq_iff
    (F : Format) (count : Nat) :
    sinceRestart F (count + 1) = F.blockRestartInterval ↔
      (count + 1) % F.blockRestartInterval = 0 := by
  rw [sinceRestart, succ_mod_interval]
  split_ifs with hfull
  · exact iff_of_true hfull rfl
  · exact iff_of_false hfull not_false

theorem sinceRestart_succ
    (F : Format) (count : Nat) :
    (if sinceRestart F count = F.blockRestartInterval then 0 else sinceRestart F count) + 1 =
      sinceRestart F (count + 1) := by
  cases count with
  | zero =>
      have hpos := F.interval_pos
      rw [sinceRestart, sinceRestart, Nat.zero_mod, if_neg (by omega)]
  | succ count =>
      rw [sinceRestart, sinceRestart, succ_mod_interval]

/-- The shared part the builder finds is that of the block. -/
theorem prefixLen_eq
    (es : F.Entries) (key : Key) :
    (if sinceRestart F es.length = F.blockRestartInterval then 0
      else sharedLen key.data (previousKey F es es.length).data) =
      prefixLenAt F es es.length key := by
  cases es using List.reverseRecOn with
  | nil =>
      have hempty : sharedLen key.data (previousKey F [] 0).data = 0 := by
        cases key.data <;> rfl
      rw [List.length_nil, hempty, ite_self, prefixLenAt, Nat.zero_mod, if_pos rfl]
  | append_singleton es last =>
      rw [List.length_append, List.length_singleton, prefixLenAt]
      simp only [sinceRestart_eq_iff]

theorem previousKey_concat
    (es : F.Entries) (key : Key) (e : BlockEntry F.values.V) :
    previousKey F (es ++ [(key, e)]) (es ++ [(key, e)]).length = key := by
  rw [List.length_append, List.length_singleton, previousKey, List.getElem?_concat_length]
  rfl

theorem head_concat
    (es : F.Entries) (key : Key) (e : BlockEntry F.values.V) :
    (es ++ [(key, e)]).head?.map Prod.fst = some ((es.head?.map Prod.fst).getD key) := by
  cases es <;> rfl

theorem keyAt_zero
    (es : F.Entries) (key : Key) (e : BlockEntry F.values.V) :
    keyAt (es ++ [(key, e)]) 0 = (es.head?.map Prod.fst).getD key := by
  cases es <;> rfl

theorem add_eq_addEntry
    (b : TableBuilder F) (s : DataBlocks F) (key : Key) (e : BlockEntry F.values.V) :
    b.add s key e = b.addEntry s key e.seqNumber e.entryType (stored F e) := by
  cases e <;> rfl

theorem add_tableBuilderOf
    (identifier : UInt64) (minKey maxKey : Key) (s : DataBlocks F)
    (st : List F.Entries × F.Entries)
    (key : Key) (e : BlockEntry F.values.V) :
    (tableBuilderOf identifier s.nextDataBlockId minKey maxKey st).add (storeAll s st.1) key e =
      .value (tableBuilderOf identifier s.nextDataBlockId minKey maxKey
          (fill F.maxKeyBlockSize st (key, e)),
        storeAll s (fill F.maxKeyBlockSize st (key, e)).1) := by
  obtain ⟨blocks, es⟩ := st
  have hne : es ++ [(key, e)] ≠ [] := List.append_ne_nil_of_right_ne_nil _ (List.cons_ne_nil _ _)
  rw [add_eq_addEntry, TableBuilder.addEntry, tableBuilderOf]
  dsimp only
  rw [prefixLen_eq, sinceRestart_succ, addEntry_builderOf, Outcome.value_bind, fill,
    List.length_append, List.length_singleton]
  by_cases hfull : F.maxKeyBlockSize ≤ es.length + 1
  · rw [if_pos hfull, if_pos hfull, finishBlock_builderOf _ hne]
    dsimp only
    rw [nextDataBlockId_storeAll, tableBuilderOf, indexOf_concat, keyAt_zero, builderOf_nil,
      storedSize_concat, storeAll_concat]
    rfl
  · rw [if_neg hfull, if_neg hfull, tableBuilderOf, previousKey_concat, head_concat,
      List.length_append, List.length_singleton]

theorem addAll_tableBuilderOf
    (identifier : UInt64) (minKey maxKey : Key) (s : DataBlocks F)
    (st : List F.Entries × F.Entries)
    (entries : F.Entries) :
    (tableBuilderOf identifier s.nextDataBlockId minKey maxKey st).addAll (storeAll s st.1)
        entries =
      .value (tableBuilderOf identifier s.nextDataBlockId minKey maxKey
          (entries.foldl (fill F.maxKeyBlockSize) st),
        storeAll s (entries.foldl (fill F.maxKeyBlockSize) st).1) := by
  induction entries generalizing st with
  | nil =>
      rfl
  | cons entry entries ih =>
      obtain ⟨key, e⟩ := entry
      rw [TableBuilder.addAll, add_tableBuilderOf, Outcome.value_bind]
      exact ih _

/-- The table of some blocks. -/
def tableOf (identifier first : UInt64) (minKey maxKey : Key)
    (blocks : List F.Entries) : SortedTable :=
  ⟨identifier, encodeIndex (indexOf first blocks) (storedSize blocks) minKey maxKey⟩

/-- The files when the table is finished. -/
def storeTable (s : DataBlocks F) (identifier : UInt64) (minKey maxKey : Key)
    (blocks : List F.Entries) : DataBlocks F :=
  { storeAll s blocks with
    indexFiles := Function.update (storeAll s blocks).indexFiles identifier
      (some (F.compression.compress
        (tableOf identifier s.nextDataBlockId minKey maxKey blocks).index.data)) }

theorem finish_tableBuilderOf
    (identifier : UInt64) (minKey maxKey : Key) (s : DataBlocks F)
    (st : List F.Entries × F.Entries) :
    (tableBuilderOf identifier s.nextDataBlockId minKey maxKey st).finish (storeAll s st.1) =
      .value (tableOf identifier s.nextDataBlockId minKey maxKey (close st),
        storeTable s identifier minKey maxKey (close st)) := by
  obtain ⟨blocks, es⟩ := st
  rw [TableBuilder.finish, tableBuilderOf, close]
  dsimp only
  cases es with
  | nil =>
      rw [builderOf_nil, if_pos List.length_nil]
      change TableBuilder.finishIndex _ _ = _
      rw [TableBuilder.finishIndex, build_eq, Outcome.value_bind]
      rfl
  | cons entry es =>
      have hne : ¬ (entry :: es).length = 0 := Nat.succ_ne_zero _
      rw [finishBlock_builderOf _ (List.cons_ne_nil _ _), if_neg hne]
      change TableBuilder.finishIndex _ _ = _
      rw [TableBuilder.finishIndex]
      dsimp only
      rw [nextDataBlockId_storeAll, build_eq, Outcome.value_bind, tableOf, storeTable, tableOf,
        indexOf_concat, storedSize_concat, storeAll_concat]
      rfl

/-- **Building a table** never fails an assertion, and its blocks are those of the entries. -/
theorem buildTable_eq
    (identifier : UInt64) (minKey maxKey : Key) (s : DataBlocks F)
    (entries : F.Entries) :
    buildTable s identifier minKey maxKey entries =
      .value (tableOf identifier s.nextDataBlockId minKey maxKey
          (split F.maxKeyBlockSize entries),
        storeTable s identifier minKey maxKey (split F.maxKeyBlockSize entries)) := by
  have hnew : TableBuilder.new F identifier minKey maxKey =
      tableBuilderOf identifier s.nextDataBlockId minKey maxKey ([], []) := by
    rw [tableBuilderOf, builderOf_nil]
    rfl
  have hall := addAll_tableBuilderOf identifier minKey maxKey s ([], []) entries
  change TableBuilder.addAll _ s entries = _ at hall
  rw [buildTable, hnew, hall, Outcome.value_bind]
  exact finish_tableBuilderOf identifier minKey maxKey s _

end Build

end Blocks
end LsmStore
