import LsmStore.Blocks.Lookup

/-!
# Iterating over a table of blocks

In forward direction an iterator goes from byte offset to byte offset, and the
key it has read last completes the next one.  In reverse direction it goes from
index to index, and every entry is read from its restart on.  Between two steps
other tasks may fill the cache and the cache may lose blocks.

What is proved is where the next entry is: the position of the iterator always
denotes the entry behind, or in front of, the one it has read.
-/

namespace LsmStore
namespace Blocks

open Chunks

variable {F : Format}

/-- `get_block_id` and `get_block`. -/
def SortedTable.getBlockAt (t : SortedTable) (s : DataBlocks F) (pos : Nat) :
    Outcome (DataBlock F × DataBlocks F) := do
  let blockId ← t.index.getBlockId pos
  s.getBlock blockId

structure TableIterator (F : Format) where
  blockPos : Int
  blockOffset : Nat
  key : Key
  entry : DataEntry F
  table : SortedTable
  reverse : Bool

namespace TableIterator

def newForward (t : SortedTable) (s : DataBlocks F) :
    Outcome (TableIterator F × DataBlocks F) := do
  let (firstBlock, s) ← t.getBlockAt s 0
  let byteLen ← firstBlock.byteLen
  let (key, entry) ← firstBlock.getEntryAtOffset 0 (ByteVec.ofList [])
  if byteLen = entry.nextOffset then .value (⟨1, 0, key, entry, t, false⟩, s)
  else .value (⟨0, entry.nextOffset, key, entry, t, false⟩, s)

def newReverse (t : SortedTable) (s : DataBlocks F) :
    Outcome (TableIterator F × DataBlocks F) := do
  let numBlocks ← t.index.numDataBlocks
  if numBlocks = 0 then .panic "assertion failed: num_blocks > 0"
  else
    let (firstBlock, s) ← t.getBlockAt s (numBlocks - 1)
    let len := firstBlock.numEntries
    if len = 0 then .panic "assertion failed: len > 0"
    else
      let (key, entry) ← firstBlock.getEntryAtIndex (len - 1)
      if len = 1 then
        let nextPos : Int := (numBlocks : Int) - 2
        if 0 ≤ nextPos then
          let (nextBlock, s) ← t.getBlockAt s nextPos.toNat
          if nextBlock.numEntries = 0 then .panic "assertion failed: len > 0"
          else .value (⟨nextPos, nextBlock.numEntries - 1, key, entry, t, true⟩, s)
        else .value (⟨nextPos, 0, key, entry, t, true⟩, s)
      else .value (⟨(numBlocks : Int) - 1, len - 2, key, entry, t, true⟩, s)

def new (t : SortedTable) (reverse : Bool) (s : DataBlocks F) :
    Outcome (TableIterator F × DataBlocks F) :=
  if reverse then newReverse t s else newForward t s

def atEnd (it : TableIterator F) : Outcome Bool :=
  if it.reverse then .value (decide (it.blockPos < -1))
  else do
    let numBlocks ← it.table.index.numDataBlocks
    .value (decide ((numBlocks : Int) < it.blockPos))

def stepReverse (it : TableIterator F) (s : DataBlocks F) :
    Outcome (TableIterator F × DataBlocks F) :=
  if it.blockPos < -1 then .panic "Cannot step(); already at end"
  else if it.blockPos = -1 then .value ({ it with blockPos := it.blockPos - 1 }, s)
  else do
    let (block, s) ← it.table.getBlockAt s it.blockPos.toNat
    let (key, entry) ← block.getEntryAtIndex it.blockOffset
    if it.blockOffset = 0 then
      if 0 ≤ it.blockPos - 1 then
        let (nextBlock, s) ← it.table.getBlockAt s (it.blockPos - 1).toNat
        let offset ← checkedSub nextBlock.numEntries 1
        .value ({ it with
          key := key, entry := entry, blockPos := it.blockPos - 1, blockOffset := offset }, s)
      else
        .value ({ it with
          key := key, entry := entry, blockPos := it.blockPos - 1, blockOffset := 0 }, s)
    else
      .value ({ it with
        key := key, entry := entry, blockOffset := it.blockOffset - 1 }, s)

def stepForward (it : TableIterator F) (s : DataBlocks F) :
    Outcome (TableIterator F × DataBlocks F) := do
  let numBlocks ← it.table.index.numDataBlocks
  if it.blockPos = numBlocks then .value ({ it with blockPos := it.blockPos + 1 }, s)
  else if (numBlocks : Int) < it.blockPos then .panic "Cannot step(); already at end"
  else
    let (block, s) ← it.table.getBlockAt s it.blockPos.toNat
    let byteLen ← block.byteLen
    let (key, entry) ← block.getEntryAtOffset it.blockOffset it.key
    if byteLen ≤ entry.nextOffset then
      .value ({ it with
        key := key, entry := entry, blockPos := it.blockPos + 1, blockOffset := 0 }, s)
    else
      .value ({ it with key := key, entry := entry, blockOffset := entry.nextOffset }, s)

def step (it : TableIterator F) (s : DataBlocks F) : Outcome (TableIterator F × DataBlocks F) :=
  if it.reverse then it.stepReverse s else it.stepForward s

/-- `while !iter.at_end()`: every entry is read before the step.  Between two steps, others may
use the data blocks. -/
def visit (between : Nat → DataBlocks F → DataBlocks F) :
    Nat → TableIterator F → DataBlocks F → Outcome F.Entries
  | 0, _, _ => .unfinished
  | fuel + 1, it, s => do
      let done ← it.atEnd
      if done then .value []
      else
        let e ← it.entry.read
        let (next, s) ← it.step s
        let rest ← visit between fuel next (between fuel s)
        .value ((it.key, e) :: rest)

end TableIterator

/-- A loop over a whole table, with so many steps. -/
def iterate (between : Nat → DataBlocks F → DataBlocks F) (t : SortedTable) (reverse : Bool)
    (steps : Nat) (s : DataBlocks F) : Outcome F.Entries := do
  let (it, s) ← TableIterator.new t reverse s
  it.visit between (steps + 1) (between (steps + 1) s)

/-! ## The place of the next entry -/

section Place

variable {blocks : List F.Entries}
  {es : F.Entries} {p i : Nat}

/-- The next entry of a forward iterator is the one behind entry `g`. -/
def NextForward (F : Format) (blocks : List F.Entries) (g : Nat)
    (key : Key) (blockPos : Int) (blockOffset : Nat) : Prop :=
  (∃ p i es next e, blocks[p]? = some es ∧ es[i]? = some (next, e) ∧
    offset blocks p + i = g + 1 ∧ blockPos = p ∧ blockOffset = offset (chunks F es) i ∧
    Continues F es i key next) ∨
  g + 1 = blocks.flatten.length ∧ blockPos = blocks.length

/-- The next entry of a reverse iterator is the one in front of entry `g`. -/
def NextReverse (blocks : List F.Entries) (g : Nat)
    (blockPos : Int) (blockOffset : Nat) : Prop :=
  (∃ p es, blocks[p]? = some es ∧ blockOffset < es.length ∧
    offset blocks p + blockOffset + 1 = g ∧ blockPos = p) ∨
  g = 0 ∧ blockPos = -1

/-- Inside a block. -/
theorem nextForward_same
    {key next : Key} {e f : BlockEntry F.values.V}
    (hblock : blocks[p]? = some es)
    (h : es[i]? = some (key, e))
    (hnext : es[i + 1]? = some (next, f)) :
    NextForward F blocks (offset blocks p + i) key p (offset (chunks F es) (i + 1)) := by
  have hcontinues : Continues F es (i + 1) key next := by
    have hprevious := continues_previousKey es (i + 1) next
    rwa [previousKey, h] at hprevious
  exact Or.inl ⟨p, i + 1, es, next, f, hblock, hnext, rfl, rfl, rfl, hcontinues⟩

/-- Behind a block. -/
theorem nextForward_last
    (hne : ∀ es ∈ blocks, es ≠ [])
    (hblock : blocks[p]? = some es)
    (hlast : i + 1 = es.length)
    (key : Key) :
    NextForward F blocks (offset blocks p + i) key (p + 1 : Nat) 0 := by
  have hsucc := offset_succ hblock
  by_cases hp : p + 1 < blocks.length
  · obtain ⟨more, hmore⟩ : ∃ es, blocks[p + 1]? = some es := ⟨_, List.getElem?_eq_getElem hp⟩
    have hpos := List.length_pos_iff.mpr (hne more (List.mem_of_getElem? hmore))
    obtain ⟨⟨next, e⟩, hnext⟩ : ∃ entry, more[0]? = some entry :=
      ⟨_, List.getElem?_eq_getElem hpos⟩
    exact Or.inl ⟨p + 1, 0, more, next, e, hmore, hnext, by omega, rfl, rfl,
      continues_restart (Nat.zero_mod _) key next⟩
  · have hend : p + 1 = blocks.length := by
      have hlt := (List.getElem?_eq_some_iff.mp hblock).1
      omega
    rw [hend, offset_length] at hsucc
    exact Or.inr ⟨by omega, by rw [hend]⟩

theorem nextReverse_same
    (hblock : blocks[p]? = some es)
    (hi : i + 1 < es.length) :
    NextReverse blocks (offset blocks p + (i + 1)) p i :=
  Or.inl ⟨p, es, hblock, by omega, rfl, rfl⟩

theorem nextReverse_previous
    (hne : ∀ es ∈ blocks, es ≠ [])
    (hblock : blocks[p]? = some es) :
    NextReverse blocks (offset blocks (p + 1)) p (es.length - 1) := by
  have hsucc := offset_succ hblock
  have hpos := List.length_pos_iff.mpr (hne es (List.mem_of_getElem? hblock))
  exact Or.inl ⟨p, es, hblock, by omega, by omega, rfl⟩

end Place

/-! ## What is left to visit -/

/-- The iterator has read entry `g` of a table. -/
structure Current (t : SortedTable) (blocks : List F.Entries)
    (g : Nat) (it : TableIterator F) : Prop where
  table : it.table = t
  entry : ∃ e, blocks.flatten[g]? = some (it.key, e) ∧ it.entry.read = .value e

/-- The entries a forward iterator has not passed yet. -/
def LeftForward (t : SortedTable) (blocks : List F.Entries)
    (it : TableIterator F) (left : F.Entries) : Prop :=
  it.reverse = false ∧
  ((∃ g, Current t blocks g it ∧ NextForward F blocks g it.key it.blockPos it.blockOffset ∧
      left = blocks.flatten.drop g) ∨
    it.table = t ∧ it.blockPos = blocks.length + 1 ∧ left = [])

/-- The entries a reverse iterator has not passed yet. -/
def LeftReverse (t : SortedTable) (blocks : List F.Entries)
    (it : TableIterator F) (left : F.Entries) : Prop :=
  it.reverse = true ∧
  ((∃ g, Current t blocks g it ∧ NextReverse blocks g it.blockPos it.blockOffset ∧
      left = (blocks.flatten.take (g + 1)).reverse) ∨
    it.table = t ∧ it.blockPos = -2 ∧ left = [])

/-- What a step of an iterator does if `Left` says what is left to visit. -/
structure Visits (t : SortedTable) (stored : DataBlocks F)
    (Left : TableIterator F → F.Entries → Prop) : Prop where
  done : ∀ it, Left it [] → it.atEnd = .value true
  step : ∀ it entry rest s, Left it (entry :: rest) → KeepsTable t stored s →
    it.atEnd = .value false ∧ it.key = entry.1 ∧ it.entry.read = .value entry.2 ∧
      ∃ next s', it.step s = .value (next, s') ∧ Left next rest ∧ KeepsTable t stored s'

/-- The loop visits what is left. -/
theorem visit_eq
    {t : SortedTable} {stored s : DataBlocks F}
    {Left : TableIterator F → F.Entries → Prop}
    {between : Nat → DataBlocks F → DataBlocks F}
    {it : TableIterator F} {left : F.Entries}
    (hvisits : Visits t stored Left)
    (hbetween : ∀ i s, KeepsTable t stored s → KeepsTable t stored (between i s))
    (hleft : Left it left)
    (hkeeps : KeepsTable t stored s) :
    it.visit between (left.length + 1) s = .value left := by
  induction left generalizing it s with
  | nil =>
      rw [TableIterator.visit, hvisits.done it hleft, Outcome.value_bind, if_pos rfl]
  | cons entry rest ih =>
      obtain ⟨hend, hkey, hread, next, s', hstep, hnext, hkeeps'⟩ :=
        hvisits.step it entry rest s hleft hkeeps
      have hrest := ih hnext (hbetween (rest.length + 1) s' hkeeps')
      rw [TableIterator.visit, hend, Outcome.value_bind, if_neg Bool.false_ne_true, hread,
        Outcome.value_bind, hstep, Outcome.value_bind, List.length_cons]
      dsimp only
      rw [hrest, Outcome.value_bind, hkey]

section Steps

variable {entries : F.Entries} {es : F.Entries}
  {s₀ stored s : DataBlocks F} {t : SortedTable} {identifier : UInt64} {minKey maxKey : Key}
  {p : Nat}

theorem current_entryAt
    {i : Nat} {key : Key} {e : BlockEntry F.values.V} {it : TableIterator F}
    {blocks : List F.Entries}
    (hfits : Fits F es)
    (hblock : blocks[p]? = some es)
    (h : es[i]? = some (key, e))
    (htable : it.table = t)
    (hkey : it.key = key)
    (hentry : it.entry = entryAt F es i) :
    Current t blocks (offset blocks p + i) it where
  table := htable
  entry := by
    refine ⟨e, ?_, ?_⟩
    · rw [getElem?_flatten hblock (List.getElem?_eq_some_iff.mp h).1, h, hkey]
    · rw [hentry, read_entryAt hfits h]

/-- The last entry of a block ends where the block does. -/
theorem end_le_iff
    {i : Nat}
    (hi : i < es.length) :
    offset (chunks F es) es.length ≤ offset (chunks F es) (i + 1) ↔ i + 1 = es.length := by
  constructor
  · intro hle
    by_contra hne
    have hlt := offset_lt (chunks_ne_nil es) (show i + 1 < es.length by omega)
      (le_of_eq (length_chunks es).symm)
    omega
  · intro heq
    rw [heq]

theorem exists_first_block
    (hne : entries ≠ []) :
    ∃ es, (split F.maxKeyBlockSize entries)[0]? = some es := by
  refine ⟨_, List.getElem?_eq_getElem (List.length_pos_iff.mpr fun hnil => hne ?_)⟩
  rw [← flatten_split_eq F.maxKeyBlockSize entries, hnil, List.flatten_nil]

/-- Behind an entry that has been read, at the end of its block or not. -/
theorem nextForward_of_read
    {blocks : List F.Entries} {i : Nat} {key : Key}
    {e : BlockEntry F.values.V}
    (hne : ∀ es ∈ blocks, es ≠ [])
    (hblock : blocks[p]? = some es)
    (h : es[i]? = some (key, e)) :
    if offset (chunks F es) es.length ≤ offset (chunks F es) (i + 1) then
      NextForward F blocks (offset blocks p + i) key ((p : Int) + 1) 0
    else NextForward F blocks (offset blocks p + i) key p (offset (chunks F es) (i + 1)) := by
  have hlt := (List.getElem?_eq_some_iff.mp h).1
  split_ifs with hend
  · exact nextForward_last hne hblock ((end_le_iff hlt).mp hend) key
  · obtain ⟨⟨next, f⟩, hnext⟩ : ∃ entry, es[i + 1]? = some entry := by
      rw [end_le_iff hlt] at hend
      exact ⟨_, List.getElem?_eq_getElem (by omega)⟩
    exact nextForward_same hblock h hnext

section Built

variable (hbuilt : buildTable s₀ identifier minKey maxKey entries = .value (t, stored))
variable (hsmall : SmallTable F entries t)

include hbuilt hsmall

theorem getBlockAt_built
    (hkeeps : KeepsTable t stored s)
    (h : (split F.maxKeyBlockSize entries)[p]? = some es) :
    ∃ s', t.getBlockAt s p = .value (encodeBlock F es, s') ∧ KeepsTable t stored s' := by
  obtain ⟨s', hget, hkeeps'⟩ := getBlock_built hbuilt hsmall hkeeps h
  refine ⟨s', ?_, hkeeps'⟩
  rw [SortedTable.getBlockAt, getBlockId_built hbuilt hsmall h, Outcome.value_bind, hget]

theorem stepForward_read
    {it : TableIterator F} {i : Nat} {next : Key} {e : BlockEntry F.values.V}
    (hkeeps : KeepsTable t stored s)
    (htable : it.table = t)
    (hblock : (split F.maxKeyBlockSize entries)[p]? = some es)
    (h : es[i]? = some (next, e))
    (hpos : it.blockPos = p)
    (hoffset : it.blockOffset = offset (chunks F es) i)
    (hcontinues : Continues F es i it.key next) :
    ∃ it' s', it.stepForward s = .value (it', s') ∧ it'.reverse = it.reverse ∧
      Current t (split F.maxKeyBlockSize entries)
        (offset (split F.maxKeyBlockSize entries) p + i) it' ∧
      NextForward F (split F.maxKeyBlockSize entries)
        (offset (split F.maxKeyBlockSize entries) p + i) it'.key it'.blockPos it'.blockOffset ∧
      KeepsTable t stored s' := by
  have hlt := (List.getElem?_eq_some_iff.mp hblock).1
  have hes := (hsmall.2 es (List.mem_of_getElem? hblock)).fits
  obtain ⟨s', hget, hkeeps'⟩ := getBlockAt_built hbuilt hsmall hkeeps hblock
  have hplace := nextForward_of_read (fun es => split_ne_nil) hblock h
  rw [TableIterator.stepForward, htable, numDataBlocks_built hbuilt hsmall, Outcome.value_bind,
    hpos, if_neg (by omega), if_neg (by omega), Int.toNat_natCast, hget, Outcome.value_bind]
  dsimp only
  rw [byteLen_eq hes, Outcome.value_bind, hoffset,
    getEntryAtOffset_entryAt hes h hcontinues, Outcome.value_bind]
  dsimp only [entryAt]
  by_cases hend : offset (chunks F es) es.length ≤ offset (chunks F es) (i + 1)
  · rw [if_pos hend] at hplace
    refine ⟨_, s', if_pos hend, ?_⟩
    exact ⟨rfl, current_entryAt hes hblock h rfl rfl rfl, hplace, hkeeps'⟩
  · rw [if_neg hend] at hplace
    refine ⟨_, s', if_neg hend, ?_⟩
    exact ⟨rfl, current_entryAt hes hblock h rfl rfl rfl, hplace, hkeeps'⟩

theorem newForward_left
    (hne : entries ≠ [])
    (hkeeps : KeepsTable t stored s) :
    ∃ it s', TableIterator.newForward t s = .value (it, s') ∧
      LeftForward t (split F.maxKeyBlockSize entries) it entries ∧ KeepsTable t stored s' := by
  obtain ⟨es, hblock⟩ := exists_first_block hne
  have hes := (hsmall.2 es (List.mem_of_getElem? hblock)).fits
  obtain ⟨⟨key, e⟩, h⟩ : ∃ entry, es[0]? = some entry :=
    ⟨_, List.getElem?_eq_getElem (List.length_pos_iff.mpr
      (split_ne_nil (List.mem_of_getElem? hblock)))⟩
  have hlt := (List.getElem?_eq_some_iff.mp h).1
  obtain ⟨s', hget, hkeeps'⟩ := getBlockAt_built hbuilt hsmall hkeeps hblock
  have hfirst : (encodeBlock F es).getEntryAtOffset 0 (ByteVec.ofList []) =
      .value (key, entryAt F es 0) :=
    getEntryAtOffset_entryAt hes h (continues_restart (Nat.zero_mod _) _ key)
  have hplace := nextForward_of_read (fun es => split_ne_nil) hblock h
  have hflatten := flatten_split_eq F.maxKeyBlockSize entries
  rw [TableIterator.newForward, hget, Outcome.value_bind]
  dsimp only
  rw [byteLen_eq hes, Outcome.value_bind, hfirst, Outcome.value_bind]
  dsimp only [entryAt]
  by_cases hend : offset (chunks F es) es.length ≤ offset (chunks F es) (0 + 1)
  · have heq : offset (chunks F es) es.length = offset (chunks F es) (0 + 1) := by
      rw [(end_le_iff hlt).mp hend]
    rw [if_pos hend] at hplace
    refine ⟨_, s', if_pos heq, ⟨rfl, Or.inl ⟨0, ?_, hplace, hflatten.symm⟩⟩, hkeeps'⟩
    exact current_entryAt hes hblock h rfl rfl rfl
  · rw [if_neg hend] at hplace
    refine ⟨_, s', if_neg (fun heq => hend (le_of_eq heq)),
      ⟨rfl, Or.inl ⟨0, ?_, hplace, hflatten.symm⟩⟩, hkeeps'⟩
    exact current_entryAt hes hblock h rfl rfl rfl

theorem visits_forward :
    Visits t stored (LeftForward t (split F.maxKeyBlockSize entries)) where
  done := by
    rintro it ⟨hreverse, ⟨g, hcurrent, -, hnil⟩ | ⟨htable, hpos, -⟩⟩
    · obtain ⟨e, hget, -⟩ := hcurrent.entry
      have hlt := (List.getElem?_eq_some_iff.mp hget).1
      exact absurd (List.drop_eq_nil_iff.mp hnil.symm) (by omega)
    · rw [TableIterator.atEnd, if_neg (ne_true_of_eq_false hreverse), htable,
        numDataBlocks_built hbuilt hsmall, Outcome.value_bind, hpos]
      congr 1
      exact decide_eq_true (by omega)
  step := by
    rintro it entry rest s ⟨hreverse, ⟨g, hcurrent, hnext, hleft⟩ | ⟨-, -, hnil⟩⟩ hkeeps
    · obtain ⟨e, hget, hread⟩ := hcurrent.entry
      obtain ⟨hlt, hentry⟩ := List.getElem?_eq_some_iff.mp hget
      rw [List.drop_eq_getElem_cons hlt, hentry] at hleft
      obtain ⟨rfl, rfl⟩ := List.cons.inj hleft
      have hforward := ne_true_of_eq_false hreverse
      have hend : ¬ ((split F.maxKeyBlockSize entries).length : Int) < it.blockPos := by
        rcases hnext with ⟨p, i, es, next, f, hblock, -, -, hpos, -⟩ | ⟨-, hpos⟩
        · have hp := (List.getElem?_eq_some_iff.mp hblock).1
          omega
        · omega
      rw [TableIterator.atEnd, if_neg hforward, hcurrent.table,
        numDataBlocks_built hbuilt hsmall, Outcome.value_bind, decide_eq_false hend,
        TableIterator.step, if_neg hforward]
      refine ⟨rfl, rfl, hread, ?_⟩
      rcases hnext with ⟨p, i, es, next, f, hblock, h, hplace, hpos, hoffset, hcontinues⟩ |
        ⟨hlast, hpos⟩
      · obtain ⟨it', s', hstep, hreverse', hcurrent', hnext', hkeeps'⟩ :=
          stepForward_read hbuilt hsmall hkeeps hcurrent.table hblock h hpos hoffset hcontinues
        rw [hplace] at hcurrent' hnext'
        exact ⟨it', s', hstep, ⟨hreverse'.trans hreverse, Or.inl ⟨g + 1, hcurrent', hnext', rfl⟩⟩,
          hkeeps'⟩
      · rw [TableIterator.stepForward, hcurrent.table, numDataBlocks_built hbuilt hsmall,
          Outcome.value_bind, if_pos hpos]
        refine ⟨_, s, rfl, ⟨hreverse, Or.inr ⟨rfl, ?_, ?_⟩⟩, hkeeps⟩
        · change it.blockPos + 1 = _
          rw [hpos]
        · exact List.drop_eq_nil_iff.mpr (by omega)
    · exact absurd hnil (List.cons_ne_nil _ _)

/-! ## In reverse direction -/

theorem previous_block
    (hkeeps : KeepsTable t stored s)
    (hblock : (split F.maxKeyBlockSize entries)[p]? = some es) :
    p = 0 ∨ ∃ q more s', p = q + 1 ∧ t.getBlockAt s q = .value (encodeBlock F more, s') ∧
      0 < more.length ∧
      NextReverse (split F.maxKeyBlockSize entries) (offset (split F.maxKeyBlockSize entries) p)
        q (more.length - 1) ∧ KeepsTable t stored s' := by
  cases p with
  | zero =>
      exact Or.inl rfl
  | succ q =>
      have hlt := (List.getElem?_eq_some_iff.mp hblock).1
      obtain ⟨more, hmore⟩ : ∃ es, (split F.maxKeyBlockSize entries)[q]? = some es :=
        ⟨_, List.getElem?_eq_getElem (by omega)⟩
      obtain ⟨s', hget, hkeeps'⟩ := getBlockAt_built hbuilt hsmall hkeeps hmore
      exact Or.inr ⟨q, more, s', rfl, hget,
        List.length_pos_iff.mpr (split_ne_nil (List.mem_of_getElem? hmore)),
        nextReverse_previous (fun es => split_ne_nil) hmore, hkeeps'⟩

theorem stepReverse_read
    {it : TableIterator F} {i : Nat} {key : Key} {e : BlockEntry F.values.V}
    (hkeeps : KeepsTable t stored s)
    (htable : it.table = t)
    (hblock : (split F.maxKeyBlockSize entries)[p]? = some es)
    (h : es[i]? = some (key, e))
    (hpos : it.blockPos = p)
    (hoffset : it.blockOffset = i) :
    ∃ it' s', it.stepReverse s = .value (it', s') ∧ it'.reverse = it.reverse ∧
      Current t (split F.maxKeyBlockSize entries)
        (offset (split F.maxKeyBlockSize entries) p + i) it' ∧
      NextReverse (split F.maxKeyBlockSize entries)
        (offset (split F.maxKeyBlockSize entries) p + i) it'.blockPos it'.blockOffset ∧
      KeepsTable t stored s' := by
  have hes := (hsmall.2 es (List.mem_of_getElem? hblock)).fits
  obtain ⟨s', hget, hkeeps'⟩ := getBlockAt_built hbuilt hsmall hkeeps hblock
  rw [TableIterator.stepReverse, hpos, if_neg (by omega), if_neg (by omega), htable,
    Int.toNat_natCast, hget, Outcome.value_bind]
  dsimp only
  rw [hoffset, getEntryAtIndex_eq hes h, Outcome.value_bind]
  dsimp only
  cases i with
  | zero =>
      rw [if_pos rfl]
      rcases previous_block hbuilt hsmall hkeeps' hblock with
        rfl | ⟨q, more, s'', rfl, hmore, hlen, hnext, hkeeps''⟩
      · refine ⟨_, s', if_neg (by omega), ?_⟩
        exact ⟨rfl, current_entryAt hes hblock h rfl rfl rfl, Or.inr ⟨rfl, rfl⟩, hkeeps'⟩
      · have hq : ((q + 1 : Nat) : Int) - 1 = q := by omega
        rw [if_pos (by omega), hq, Int.toNat_natCast, hmore, Outcome.value_bind]
        dsimp only
        rw [checkedSub_of_le (show 1 ≤ (encodeBlock F more).numEntries from hlen),
          Outcome.value_bind]
        refine ⟨_, s'', rfl, ?_⟩
        exact ⟨rfl, current_entryAt hes hblock h rfl rfl rfl, hnext, hkeeps''⟩
  | succ j =>
      refine ⟨_, s', if_neg (Nat.succ_ne_zero j), ?_⟩
      exact ⟨rfl, current_entryAt hes hblock h rfl rfl rfl,
        nextReverse_same hblock (List.getElem?_eq_some_iff.mp h).1, hkeeps'⟩

theorem newReverse_left
    (hne : entries ≠ [])
    (hkeeps : KeepsTable t stored s) :
    ∃ it s', TableIterator.newReverse t s = .value (it, s') ∧
      LeftReverse t (split F.maxKeyBlockSize entries) it entries.reverse ∧
      KeepsTable t stored s' := by
  have hflatten := flatten_split_eq F.maxKeyBlockSize entries
  obtain ⟨first, hfirst⟩ := exists_first_block (F := F) hne
  have hnum : 0 < (split F.maxKeyBlockSize entries).length :=
    (List.getElem?_eq_some_iff.mp hfirst).1
  obtain ⟨es, hblock⟩ : ∃ es, (split F.maxKeyBlockSize entries)[(split F.maxKeyBlockSize
      entries).length - 1]? = some es := ⟨_, List.getElem?_eq_getElem (by omega)⟩
  have hes := (hsmall.2 es (List.mem_of_getElem? hblock)).fits
  have hlen := List.length_pos_iff.mpr (split_ne_nil (List.mem_of_getElem? hblock))
  obtain ⟨⟨key, e⟩, h⟩ : ∃ entry, es[es.length - 1]? = some entry :=
    ⟨_, List.getElem?_eq_getElem (by omega)⟩
  obtain ⟨s', hget, hkeeps'⟩ := getBlockAt_built hbuilt hsmall hkeeps hblock
  -- the entry that is read is the last one of all
  have hall : entries.reverse = ((split F.maxKeyBlockSize entries).flatten.take
      (offset (split F.maxKeyBlockSize entries) ((split F.maxKeyBlockSize entries).length - 1) +
        (es.length - 1) + 1)).reverse := by
    have hsucc := offset_succ hblock
    rw [Nat.sub_add_cancel hnum, offset_length] at hsucc
    rw [List.take_of_length_le (by omega), hflatten]
  have hcount : (encodeBlock F es).numEntries = es.length := rfl
  rw [TableIterator.newReverse, numDataBlocks_built hbuilt hsmall, Outcome.value_bind,
    if_neg (by omega), hget, Outcome.value_bind]
  dsimp only
  rw [hcount, if_neg (by omega), getEntryAtIndex_eq hes h, Outcome.value_bind]
  dsimp only
  by_cases hone : es.length = 1
  · have hzero : es.length - 1 = 0 := by omega
    rw [hzero] at h hall
    rw [if_pos hone, hzero]
    rcases previous_block hbuilt hsmall hkeeps' hblock with
      hp | ⟨q, more, s'', hp, hmore, hlen', hnext, hkeeps''⟩
    · rw [if_neg (by omega)]
      refine ⟨_, s', rfl, ⟨rfl, Or.inl ⟨_, ?_, ?_, hall⟩⟩, hkeeps'⟩
      · exact current_entryAt hes hblock h rfl rfl rfl
      · refine Or.inr ⟨by rw [hp, offset_zero], ?_⟩
        change ((split F.maxKeyBlockSize entries).length : Int) - 2 = -1
        omega
    · have hq : ((split F.maxKeyBlockSize entries).length : Int) - 2 = q := by omega
      have hcount' : (encodeBlock F more).numEntries = more.length := rfl
      rw [hq, if_pos (Int.natCast_nonneg q), Int.toNat_natCast, hmore, Outcome.value_bind]
      dsimp only
      rw [hcount', if_neg (by omega)]
      refine ⟨_, s'', rfl, ⟨rfl, Or.inl ⟨_, ?_, hnext, hall⟩⟩, hkeeps''⟩
      exact current_entryAt hes hblock h rfl rfl rfl
  · rw [if_neg hone]
    refine ⟨_, s', rfl, ⟨rfl, Or.inl ⟨_, ?_, ?_, hall⟩⟩, hkeeps'⟩
    · exact current_entryAt hes hblock h rfl rfl rfl
    · have hback := nextReverse_same hblock (show es.length - 2 + 1 < es.length by omega)
      rw [show es.length - 2 + 1 = es.length - 1 by omega] at hback
      change NextReverse _ _ (((split F.maxKeyBlockSize entries).length : Int) - 1) _
      rw [show ((split F.maxKeyBlockSize entries).length : Int) - 1 =
        ((split F.maxKeyBlockSize entries).length - 1 : Nat) by omega]
      exact hback

theorem visits_reverse :
    Visits t stored (LeftReverse t (split F.maxKeyBlockSize entries)) where
  done := by
    rintro it ⟨hreverse, ⟨g, hcurrent, -, hnil⟩ | ⟨htable, hpos, -⟩⟩
    · obtain ⟨e, hget, -⟩ := hcurrent.entry
      have hlt := (List.getElem?_eq_some_iff.mp hget).1
      have hlength := congrArg List.length hnil
      rw [List.length_reverse, List.length_take, List.length_nil] at hlength
      omega
    · rw [TableIterator.atEnd, if_pos hreverse, hpos]
      rfl
  step := by
    rintro it entry rest s ⟨hreverse, ⟨g, hcurrent, hnext, hleft⟩ | ⟨-, -, hnil⟩⟩ hkeeps
    · obtain ⟨e, hget, hread⟩ := hcurrent.entry
      rw [List.take_add_one, hget, Option.toList_some, List.reverse_concat] at hleft
      obtain ⟨rfl, rfl⟩ := List.cons.inj hleft
      have hend : ¬ it.blockPos < -1 := by
        rcases hnext with ⟨p, es, -, -, -, hpos⟩ | ⟨-, hpos⟩
        · omega
        · omega
      rw [TableIterator.atEnd, if_pos hreverse, decide_eq_false hend, TableIterator.step,
        if_pos hreverse]
      refine ⟨rfl, rfl, hread, ?_⟩
      rcases hnext with ⟨p, es, hblock, hi, hplace, hpos⟩ | ⟨rfl, hpos⟩
      · obtain ⟨⟨key, f⟩, h⟩ : ∃ entry, es[it.blockOffset]? = some entry :=
          ⟨_, List.getElem?_eq_getElem hi⟩
        obtain ⟨it', s', hstep, hreverse', hcurrent', hnext', hkeeps'⟩ :=
          stepReverse_read hbuilt hsmall hkeeps hcurrent.table hblock h hpos rfl
        subst hplace
        exact ⟨it', s', hstep, ⟨hreverse'.trans hreverse, Or.inl ⟨_, hcurrent', hnext', rfl⟩⟩,
          hkeeps'⟩
      · rw [TableIterator.stepReverse, if_neg hend, if_pos hpos]
        refine ⟨_, s, rfl, ⟨hreverse, Or.inr ⟨hcurrent.table, ?_, rfl⟩⟩, hkeeps⟩
        change it.blockPos - 1 = -2
        rw [hpos]
        rfl
    · exact absurd hnil (List.cons_ne_nil _ _)

end Built

/-- **Iteration is exact**: in both directions an iterator visits every entry of the table and
is at the end after as many steps as there are entries, whatever happens to the cache
meanwhile.  The order of the keys does not matter for this. -/
theorem table_iteration_exact
    (s₀ : DataBlocks F) (identifier : UInt64) (minKey maxKey : Key)
    (entries : F.Entries)
    (hne : entries ≠ []) :
    ∃ t stored, buildTable s₀ identifier minKey maxKey entries = .value (t, stored) ∧
      (SmallTable F entries t → ∀ s between, KeepsTable t stored s →
        (∀ i s, KeepsTable t stored s → KeepsTable t stored (between i s)) →
        iterate between t false entries.length s = .value entries ∧
        iterate between t true entries.length s = .value entries.reverse) := by
  have hbuilt := buildTable_eq identifier minKey maxKey s₀ entries
  refine ⟨_, _, hbuilt, fun hsmall s between hkeeps hbetween => ⟨?_, ?_⟩⟩
  · obtain ⟨it, s', hnew, hleft, hkeeps'⟩ := newForward_left hbuilt hsmall hne hkeeps
    have hvisit := visit_eq (visits_forward hbuilt hsmall) hbetween hleft
      (hbetween (entries.length + 1) s' hkeeps')
    rw [iterate, TableIterator.new, if_neg Bool.false_ne_true, hnew, Outcome.value_bind]
    exact hvisit
  · obtain ⟨it, s', hnew, hleft, hkeeps'⟩ := newReverse_left hbuilt hsmall hne hkeeps
    have hvisit := visit_eq (visits_reverse hbuilt hsmall) hbetween hleft
      (hbetween (entries.length + 1) s' hkeeps')
    rw [List.length_reverse] at hvisit
    rw [iterate, TableIterator.new, if_pos rfl, hnew, Outcome.value_bind]
    exact hvisit

end Steps

/-- Three entries in two blocks, with a cache that keeps nothing. -/
theorem table_iteration_exact_uncached :
    let F := Format.basic 1 2 (by decide)
    let key : List UInt8 → Key := ByteVec.ofList
    let entries : F.Entries :=
      [(key [1], .put 5 (ByteVec.ofList [7])), (key [1, 2], .delete 6),
        (key [3], .put 7 (ByteVec.ofList []))]
    ∃ t stored, buildTable (DataBlocks.empty F) 9 (key [1]) (key [3]) entries =
        .value (t, stored) ∧
      SmallTable F entries t ∧
      iterate (fun _ s => s.reopened) t false 3 stored = .value entries ∧
      iterate (fun _ s => s.reopened) t true 3 stored = .value entries.reverse := by
  intro F key entries
  obtain ⟨t, stored, hbuilt, hexact⟩ := table_iteration_exact (DataBlocks.empty F) 9 (key [1])
    (key [3]) entries (List.cons_ne_nil _ _)
  have hsmall : SmallTable F entries t := by
    obtain ⟨rfl, -⟩ := built_eq hbuilt
    unfold SmallTable SmallIndex SmallBlock
    decide +kernel
  exact ⟨t, stored, hbuilt, hsmall, hexact hsmall stored (fun _ s => s.reopened)
    (KeepsTable.refl t stored) fun _ _ hkeeps => hkeeps.reopened⟩

end Blocks
end LsmStore
