import LsmStore.SortedTable

/-!
# The table iterator

A table is read block by block.  An iterator is the place of the next entry, a
block and an offset in it, together with the entry it has read last.  Offsets
are counted in entries here; how the entries of a table are distributed over its
blocks is given by a layout, and the iterator works for any.
-/

namespace LsmStore

/-- The data blocks of a table. -/
structure BlockLayout (t : SortedTable) where
  blocks : List Entries
  flatten_eq : blocks.flatten = t.entries
  nonempty : ∀ block ∈ blocks, block ≠ []

/-- Every table is one block. -/
def oneBlock (t : SortedTable) : BlockLayout t where
  blocks := [t.entries]
  flatten_eq := List.flatten_singleton
  nonempty := by
    simpa using t.nonempty

structure TableIterator where
  blockPos : Int
  blockOffset : Nat
  key : Key
  entry : MemtableEntry
  blocks : List Entries
  reverse : Bool

/-- `get_block_id` and `get_block`. -/
def getBlock (blocks : List Entries) (pos : Int) :
    Outcome Entries :=
  match blocks[pos.toNat]? with
  | some block => .value block
  | none => .panic "index out of bounds"

/-- `get_entry_at_offset` and `get_entry_at_index`. -/
def getEntryAt (block : Entries) (offset : Nat) :
    Outcome (Key × MemtableEntry) :=
  match block[offset]? with
  | some e => .value e
  | none => .panic s!"Invalid offset {offset}"

namespace TableIterator

def newForward (blocks : List Entries) : Outcome TableIterator := do
  let first ← getBlock blocks 0
  let e ← getEntryAt first 0
  if first.length = 1 then pure ⟨1, 0, e.1, e.2, blocks, false⟩
  else pure ⟨0, 1, e.1, e.2, blocks, false⟩

def newReverse (blocks : List Entries) : Outcome TableIterator := do
  let numBlocks : Int := blocks.length
  if numBlocks ≤ 0 then .panic "assertion failed: num_blocks > 0"
  else
    let first ← getBlock blocks (numBlocks - 1)
    if first.length = 0 then .panic "assertion failed: len > 0"
    else
      let e ← getEntryAt first (first.length - 1)
      if first.length = 1 then
        if 0 ≤ numBlocks - 2 then
          let next ← getBlock blocks (numBlocks - 2)
          if next.length = 0 then .panic "assertion failed: len > 0"
          else pure ⟨numBlocks - 2, next.length - 1, e.1, e.2, blocks, true⟩
        else pure ⟨numBlocks - 2, 0, e.1, e.2, blocks, true⟩
      else pure ⟨numBlocks - 1, first.length - 2, e.1, e.2, blocks, true⟩

def new (blocks : List Entries) (reverse : Bool) :
    Outcome TableIterator :=
  if reverse then newReverse blocks else newForward blocks

def atEnd (it : TableIterator) : Bool :=
  if it.reverse then decide (it.blockPos < -1)
  else decide ((it.blocks.length : Int) < it.blockPos)

def stepReverse (it : TableIterator) : Outcome TableIterator :=
  if it.blockPos < -1 then .panic "Cannot step(); already at end"
  else if it.blockPos = -1 then .value { it with blockPos := it.blockPos - 1 }
  else do
    let block ← getBlock it.blocks it.blockPos
    let e ← getEntryAt block it.blockOffset
    if it.blockOffset = 0 then
      if 0 ≤ it.blockPos - 1 then
        let next ← getBlock it.blocks (it.blockPos - 1)
        pure { it with
          key := e.1, entry := e.2, blockPos := it.blockPos - 1
          blockOffset := next.length - 1 }
      else pure { it with
        key := e.1, entry := e.2, blockPos := it.blockPos - 1, blockOffset := 0 }
    else pure { it with key := e.1, entry := e.2, blockOffset := it.blockOffset - 1 }

def stepForward (it : TableIterator) : Outcome TableIterator :=
  if it.blockPos = it.blocks.length then .value { it with blockPos := it.blockPos + 1 }
  else if (it.blocks.length : Int) < it.blockPos then .panic "Cannot step(); already at end"
  else do
    let block ← getBlock it.blocks it.blockPos
    let e ← getEntryAt block it.blockOffset
    if block.length ≤ it.blockOffset + 1 then
      pure { it with key := e.1, entry := e.2, blockPos := it.blockPos + 1, blockOffset := 0 }
    else pure { it with key := e.1, entry := e.2, blockOffset := it.blockOffset + 1 }

def step (it : TableIterator) : Outcome TableIterator :=
  if it.reverse then it.stepReverse else it.stepForward

/-! ## What is left -/

/-- The entries the iterator has not read yet. -/
def rest (it : TableIterator) : Entries :=
  if it.reverse then
    if it.blockPos < 0 then []
    else ((it.blocks.take it.blockPos.toNat).flatten ++
      ((it.blocks[it.blockPos.toNat]?).getD []).take (it.blockOffset + 1)).reverse
  else (it.blocks.drop it.blockPos.toNat).flatten.drop it.blockOffset

/-- The place of the next entry is in its block, or the blocks have been passed. -/
structure Valid (it : TableIterator) : Prop where
  nonempty : ∀ block ∈ it.blocks, block ≠ []
  bounds : if it.reverse then it.blockPos < it.blocks.length else 0 ≤ it.blockPos
  offset : ∀ block, 0 ≤ it.blockPos → it.blocks[it.blockPos.toNat]? = some block →
    it.blockOffset < block.length

section Step

variable {it : TableIterator}

theorem getBlock_eq
    {blocks : List Entries} {pos : Int}
    {block : Entries}
    (h : blocks[pos.toNat]? = some block) :
    getBlock blocks pos = .value block := by
  rw [getBlock, h]

theorem getEntryAt_eq
    {block : Entries} {offset : Nat} {e : Key × MemtableEntry}
    (h : block[offset]? = some e) :
    getEntryAt block offset = .value e := by
  rw [getEntryAt, h]

theorem rest_forward
    (it : TableIterator)
    {p : Nat} {block : Entries}
    (hrev : it.reverse = false)
    (hpos : it.blockPos = p)
    (hblock : it.blocks[p]? = some block)
    (hoffset : it.blockOffset ≤ block.length) :
    it.rest = block.drop it.blockOffset ++ (it.blocks.drop (p + 1)).flatten := by
  obtain ⟨hlt, heq⟩ := List.getElem?_eq_some_iff.mp hblock
  rw [rest, hrev, if_neg Bool.false_ne_true, hpos, Int.toNat_natCast,
    List.drop_eq_getElem_cons hlt, heq, List.flatten_cons,
    List.drop_append_of_le_length hoffset]

theorem stepForward_cons
    (it : TableIterator)
    {p : Nat} {block : Entries} {e : Key × MemtableEntry}
    (h : it.Valid)
    (hrev : it.reverse = false)
    (hpos : it.blockPos = p)
    (hblock : it.blocks[p]? = some block)
    (he : block[it.blockOffset]? = some e) :
    ∃ it', it.stepForward = .value it' ∧ it'.Valid ∧ it'.reverse = false ∧
      it'.blocks = it.blocks ∧ it'.atEnd = false ∧ it'.key = e.1 ∧ it'.entry = e.2 ∧
      it.rest = e :: it'.rest := by
  obtain ⟨hlt, hget⟩ := List.getElem?_eq_some_iff.mp he
  obtain ⟨hp, -⟩ := List.getElem?_eq_some_iff.mp hblock
  have hblock' : it.blocks[it.blockPos.toNat]? = some block := by
    rw [hpos, Int.toNat_natCast, hblock]
  have hrest : it.rest = e :: (block.drop (it.blockOffset + 1) ++
      (it.blocks.drop (p + 1)).flatten) := by
    rw [rest_forward it hrev hpos hblock (by omega), List.drop_eq_getElem_cons hlt, hget]
    rfl
  rw [stepForward, if_neg (by omega), if_neg (by omega), getBlock_eq hblock',
    Outcome.value_bind, getEntryAt_eq he, Outcome.value_bind]
  split_ifs with hlast
  · refine ⟨_, rfl, ⟨h.nonempty, ?_, ?_⟩, hrev, rfl, ?_, rfl, rfl, ?_⟩
    · simp only [hrev, Bool.false_eq_true, if_false]
      omega
    · intro next _ hnext
      exact List.length_pos_iff.mpr (h.nonempty next (List.mem_of_getElem? hnext))
    · simp only [atEnd, hrev, Bool.false_eq_true, if_false, decide_eq_false_iff_not]
      omega
    · rw [hrest, List.drop_of_length_le hlast, List.nil_append]
      simp only [rest, hrev, Bool.false_eq_true, if_false, List.drop_zero]
      rw [show (it.blockPos + 1).toNat = p + 1 by omega]
  · refine ⟨_, rfl, ⟨h.nonempty, h.bounds, ?_⟩, hrev, rfl, ?_, rfl, rfl, ?_⟩
    · intro next _ hnext
      obtain rfl : next = block := Option.some.inj (hnext.symm.trans hblock')
      exact not_le.mp hlast
    · simp only [atEnd, hrev, Bool.false_eq_true, if_false, decide_eq_false_iff_not]
      omega
    · rw [hrest]
      congr 1
      exact (rest_forward { it with
        key := e.1, entry := e.2, blockOffset := it.blockOffset + 1 }
        hrev hpos hblock (by dsimp only; omega)).symm

theorem rest_reverse
    (it : TableIterator)
    {p : Nat} {block : Entries}
    (hrev : it.reverse = true)
    (hpos : it.blockPos = p)
    (hblock : it.blocks[p]? = some block) :
    it.rest = ((it.blocks.take p).flatten ++ block.take (it.blockOffset + 1)).reverse := by
  rw [rest, hrev, if_pos rfl, if_neg (by omega), hpos, Int.toNat_natCast, hblock,
    Option.getD_some]

theorem stepReverse_cons
    (it : TableIterator)
    {p : Nat} {block : Entries} {e : Key × MemtableEntry}
    (h : it.Valid)
    (hrev : it.reverse = true)
    (hpos : it.blockPos = p)
    (hblock : it.blocks[p]? = some block)
    (he : block[it.blockOffset]? = some e) :
    ∃ it', it.stepReverse = .value it' ∧ it'.Valid ∧ it'.reverse = true ∧
      it'.blocks = it.blocks ∧ it'.atEnd = false ∧ it'.key = e.1 ∧ it'.entry = e.2 ∧
      it.rest = e :: it'.rest := by
  obtain ⟨hlt, hget⟩ := List.getElem?_eq_some_iff.mp he
  obtain ⟨hp, -⟩ := List.getElem?_eq_some_iff.mp hblock
  have hblock' : it.blocks[it.blockPos.toNat]? = some block := by
    rw [hpos, Int.toNat_natCast, hblock]
  have hbounds := h.bounds
  rw [hrev, if_pos rfl] at hbounds
  have hrest : it.rest = e ::
      ((it.blocks.take p).flatten ++ block.take it.blockOffset).reverse := by
    rw [rest_reverse it hrev hpos hblock, List.take_add_one, he, Option.toList_some,
      ← List.append_assoc, List.reverse_append, List.reverse_singleton,
      List.singleton_append]
  rw [stepReverse, if_neg (by omega), if_neg (by omega), getBlock_eq hblock',
    Outcome.value_bind, getEntryAt_eq he, Outcome.value_bind]
  split_ifs with hzero hmore
  · -- on to the last entry of the block before
    obtain ⟨q, rfl⟩ : ∃ q, p = q + 1 := ⟨p - 1, by omega⟩
    have hq : q < it.blocks.length := by omega
    have hnext : it.blocks[(it.blockPos - 1).toNat]? = some it.blocks[q] := by
      rw [show (it.blockPos - 1).toNat = q by omega, List.getElem?_eq_getElem hq]
    have hne : it.blocks[q] ≠ [] := h.nonempty _ (List.getElem_mem hq)
    have hlen := List.length_pos_iff.mpr hne
    rw [getBlock_eq hnext, Outcome.value_bind]
    refine ⟨_, rfl, ⟨h.nonempty, ?_, ?_⟩, hrev, rfl, ?_, rfl, rfl, ?_⟩
    · simp only [hrev, if_true]
      omega
    · intro next _ hnext'
      obtain rfl : it.blocks[q] = next := Option.some.inj (hnext.symm.trans hnext')
      dsimp only
      omega
    · simp only [atEnd, hrev, if_true, decide_eq_false_iff_not]
      omega
    · rw [hrest, hzero, List.take_zero, List.append_nil]
      congr 1
      rw [rest_reverse { it with
        key := e.1, entry := e.2, blockPos := it.blockPos - 1
        blockOffset := it.blocks[q].length - 1 } (p := q) hrev (by dsimp only; omega)
        (List.getElem?_eq_getElem hq)]
      dsimp only
      have hsplit : (it.blocks.take (q + 1)).flatten =
          (it.blocks.take q).flatten ++ it.blocks[q] := by
        rw [List.take_add_one, List.getElem?_eq_getElem hq, Option.toList_some,
          List.flatten_append, List.flatten_singleton]
      rw [hsplit, Nat.sub_add_cancel (by omega), List.take_length]
  · obtain rfl : p = 0 := by omega
    refine ⟨_, rfl, ⟨h.nonempty, ?_, ?_⟩, hrev, rfl, ?_, rfl, rfl, ?_⟩
    · simp only [hrev, if_true]
      omega
    · intro next hge _
      dsimp only at hge
      omega
    · simp only [atEnd, hrev, if_true, decide_eq_false_iff_not]
      omega
    · rw [hrest, hzero, rest]
      dsimp only
      rw [hrev, if_pos rfl, if_pos (by omega)]
      rfl
  · refine ⟨_, rfl, ⟨h.nonempty, h.bounds, ?_⟩, hrev, rfl, ?_, rfl, rfl, ?_⟩
    · intro next _ hnext
      obtain rfl : block = next := Option.some.inj (hblock'.symm.trans hnext)
      dsimp only
      omega
    · simp only [atEnd, hrev, if_true, decide_eq_false_iff_not]
      omega
    · rw [hrest]
      congr 1
      rw [rest_reverse { it with
        key := e.1, entry := e.2, blockOffset := it.blockOffset - 1 } hrev hpos hblock]
      dsimp only
      rw [Nat.sub_add_cancel (by omega)]

/-- An entry is left exactly while the place is in a block. -/
theorem rest_eq_cons
    {e : Key × MemtableEntry} {l : Entries}
    (h : it.Valid)
    (hrest : it.rest = e :: l) :
    ∃ (p : Nat) (block : Entries), it.blockPos = p ∧
      it.blocks[p]? = some block ∧ it.blockOffset < block.length := by
  have hge : 0 ≤ it.blockPos ∧ it.blockPos.toNat < it.blocks.length := by
    have hbounds := h.bounds
    unfold rest at hrest
    split_ifs at hrest hbounds with hrev hneg
    · omega
    · refine ⟨hbounds, ?_⟩
      by_contra hlen
      rw [List.drop_of_length_le (not_lt.mp hlen)] at hrest
      simp at hrest
  refine ⟨it.blockPos.toNat, it.blocks[it.blockPos.toNat], by omega,
    List.getElem?_eq_getElem hge.2, ?_⟩
  exact h.offset _ hge.1 (List.getElem?_eq_getElem hge.2)

/-- A step reads the next entry that is left. -/
theorem step_cons
    {e : Key × MemtableEntry} {l : Entries}
    (h : it.Valid)
    (hrest : it.rest = e :: l) :
    ∃ it', it.step = .value it' ∧ it'.Valid ∧ it'.blocks = it.blocks ∧ it'.atEnd = false ∧
      it'.key = e.1 ∧ it'.entry = e.2 ∧ it'.rest = l := by
  obtain ⟨p, block, hpos, hblock, hoffset⟩ := rest_eq_cons h hrest
  have he := List.getElem?_eq_getElem hoffset
  cases hrev : it.reverse with
  | true =>
      obtain ⟨it', hstep, hvalid, -, hblocks, hend, hkey, hentry, hrest'⟩ :=
        stepReverse_cons it h hrev hpos hblock he
      obtain ⟨rfl, rfl⟩ := List.cons.inj (hrest.symm.trans hrest')
      exact ⟨it', by rw [step, hrev, if_pos rfl, hstep], hvalid, hblocks, hend, hkey, hentry,
        rfl⟩
  | false =>
      obtain ⟨it', hstep, hvalid, -, hblocks, hend, hkey, hentry, hrest'⟩ :=
        stepForward_cons it h hrev hpos hblock he
      obtain ⟨rfl, rfl⟩ := List.cons.inj (hrest.symm.trans hrest')
      exact ⟨it', by rw [step, hrev, if_neg Bool.false_ne_true, hstep], hvalid, hblocks, hend,
        hkey, hentry, rfl⟩

theorem step_nil
    (h : it.Valid)
    (hend : it.atEnd = false)
    (hrest : it.rest = []) :
    ∃ it', it.step = .value it' ∧ it'.Valid ∧ it'.blocks = it.blocks ∧ it'.atEnd = true := by
  have hbounds := h.bounds
  -- a place in a block would leave an entry
  have hnot : ∀ p : Nat, it.blockPos = p → it.blocks.length ≤ p := by
    intro p hpos
    by_contra hlt
    have hblock := List.getElem?_eq_getElem (not_le.mp hlt)
    have hoffset := h.offset _ (by omega) (by rw [hpos, Int.toNat_natCast, hblock])
    have he := List.getElem?_eq_getElem hoffset
    cases hrev : it.reverse with
    | true =>
        obtain ⟨it', -, -, -, -, -, -, -, hrest'⟩ := stepReverse_cons it h hrev hpos hblock he
        cases hrest.symm.trans hrest'
    | false =>
        obtain ⟨it', -, -, -, -, -, -, -, hrest'⟩ := stepForward_cons it h hrev hpos hblock he
        cases hrest.symm.trans hrest'
  unfold atEnd at hend
  cases hrev : it.reverse with
  | true =>
      rw [hrev, if_pos rfl] at hbounds hend
      rw [decide_eq_false_iff_not] at hend
      have hpos : it.blockPos = -1 := by
        by_contra hne
        have := hnot it.blockPos.toNat (by omega)
        omega
      rw [step, hrev, if_pos rfl, stepReverse, if_neg hend, if_pos hpos]
      refine ⟨_, rfl, ⟨h.nonempty, ?_, ?_⟩, rfl, ?_⟩
      · simp only [hrev, if_true]
        omega
      · intro block hge _
        dsimp only at hge
        omega
      · simp only [atEnd, hrev, if_true, decide_eq_true_iff]
        omega
  | false =>
      rw [hrev, if_neg Bool.false_ne_true] at hbounds hend
      rw [decide_eq_false_iff_not] at hend
      have hpos : it.blockPos = it.blocks.length := by
        have := hnot it.blockPos.toNat (by omega)
        omega
      rw [step, hrev, if_neg Bool.false_ne_true, stepForward, if_pos hpos]
      refine ⟨_, rfl, ⟨h.nonempty, ?_, ?_⟩, rfl, ?_⟩
      · simp only [hrev, Bool.false_eq_true, if_false]
        omega
      · intro block _ hblock
        have := (List.getElem?_eq_some_iff.mp hblock).1
        dsimp only at this
        omega
      · simp only [atEnd, hrev, Bool.false_eq_true, if_false, decide_eq_true_iff]
        omega

theorem newForward_eq_step
    {blocks : List Entries} {first : Entries}
    {e : Key × MemtableEntry}
    (hblock : blocks[0]? = some first)
    (he : first[0]? = some e) :
    newForward blocks = stepForward ⟨0, 0, e.1, e.2, blocks, false⟩ := by
  have hlen := (List.getElem?_eq_some_iff.mp hblock).1
  have hfirst := (List.getElem?_eq_some_iff.mp he).1
  have hget : getBlock blocks 0 = .value first := getBlock_eq hblock
  rw [newForward, stepForward]
  dsimp only
  rw [if_neg (by omega), if_neg (by omega), hget, Outcome.value_bind, Outcome.value_bind,
    getEntryAt_eq he, Outcome.value_bind, Outcome.value_bind]
  by_cases hone : first.length = 1
  · rw [if_pos hone, if_pos (by omega)]
    rfl
  · rw [if_neg hone, if_neg (by omega)]

/-- In reverse direction it makes a step from the last entry. -/
theorem newReverse_eq_step
    {blocks : List Entries} {first : Entries}
    {e : Key × MemtableEntry}
    (hnonempty : ∀ block ∈ blocks, block ≠ [])
    (hblock : blocks[blocks.length - 1]? = some first)
    (he : first[first.length - 1]? = some e) :
    newReverse blocks =
      stepReverse ⟨(blocks.length : Int) - 1, first.length - 1, e.1, e.2, blocks, true⟩ := by
  have hlen := (List.getElem?_eq_some_iff.mp hblock).1
  have hfirst := (List.getElem?_eq_some_iff.mp he).1
  have hindex : ((blocks.length : Int) - 1).toNat = blocks.length - 1 := by omega
  have hget : getBlock blocks ((blocks.length : Int) - 1) = .value first :=
    getBlock_eq (by rw [hindex]; exact hblock)
  have hpos : (blocks.length : Int) - 1 - 1 = (blocks.length : Int) - 2 := by omega
  rw [newReverse, stepReverse]
  dsimp only
  rw [if_neg (by omega), if_neg (by omega), if_neg (by omega), hget, Outcome.value_bind,
    Outcome.value_bind, if_neg (by omega), getEntryAt_eq he, Outcome.value_bind,
    Outcome.value_bind, hpos]
  by_cases hone : first.length = 1
  · have hzero : first.length - 1 = 0 := by omega
    rw [if_pos hone, if_pos hzero]
    by_cases hmore : 0 ≤ (blocks.length : Int) - 2
    · rw [if_pos hmore, if_pos hmore]
      have hnext : ((blocks.length : Int) - 2).toNat < blocks.length := by omega
      have hne := List.length_pos_iff.mpr (hnonempty _ (List.getElem_mem hnext))
      rw [getBlock_eq (List.getElem?_eq_getElem hnext), Outcome.value_bind,
        Outcome.value_bind, if_neg (by omega)]
    · rw [if_neg hmore, if_neg hmore]
  · have hzero : first.length - 1 ≠ 0 := by omega
    rw [if_neg hone, if_neg hzero, Nat.sub_sub]

/-- A new iterator has read the first entry, or the last one in reverse direction. -/
theorem new_spec
    {t : SortedTable}
    (layout : BlockLayout t) (reverse : Bool) :
    ∃ it, new layout.blocks reverse = .value it ∧ it.Valid ∧ it.blocks = layout.blocks ∧
      it.atEnd = false ∧
      (it.key, it.entry) :: it.rest = if reverse then t.entries.reverse else t.entries := by
  have hne : layout.blocks ≠ [] := by
    intro hnil
    have hflatten := layout.flatten_eq
    rw [hnil] at hflatten
    exact t.nonempty hflatten.symm
  have hlen := List.length_pos_iff.mpr hne
  cases reverse with
  | false =>
      have hblock := List.getElem?_eq_getElem hlen
      have hfirst := List.length_pos_iff.mpr (layout.nonempty _ (List.getElem_mem hlen))
      have he := List.getElem?_eq_getElem hfirst
      obtain ⟨it, hstep, hvalid, -, hblocks, hend, hkey, hentry, hrest⟩ := stepForward_cons
        ⟨0, 0, layout.blocks[0][0].1, layout.blocks[0][0].2, layout.blocks, false⟩
        ⟨layout.nonempty, by simp, fun block _ hb => by
          obtain rfl : layout.blocks[0] = block := Option.some.inj (hblock.symm.trans hb)
          exact hfirst⟩ rfl rfl hblock he
      refine ⟨it, ?_, hvalid, hblocks, hend, ?_⟩
      · rw [← hstep]
        exact newForward_eq_step hblock he
      · rw [hkey, hentry, ← hrest]
        exact layout.flatten_eq
  | true =>
      have hlast : layout.blocks.length - 1 < layout.blocks.length := by omega
      have hblock := List.getElem?_eq_getElem hlast
      have hfirst := List.length_pos_iff.mpr (layout.nonempty _ (List.getElem_mem hlast))
      generalize layout.blocks[layout.blocks.length - 1] = block at hblock hfirst
      have hsub : block.length - 1 < block.length := by omega
      have he := List.getElem?_eq_getElem hsub
      generalize block[block.length - 1] = e at he
      have hindex : ((layout.blocks.length : Int) - 1).toNat = layout.blocks.length - 1 := by
        omega
      obtain ⟨it, hstep, hvalid, -, hblocks, hend, hkey, hentry, hrest⟩ := stepReverse_cons
        ⟨(layout.blocks.length : Int) - 1, block.length - 1, e.1, e.2, layout.blocks, true⟩
        (p := layout.blocks.length - 1)
        ⟨layout.nonempty, by simp, fun block' _ hb => by
          rw [hindex, hblock] at hb
          obtain rfl := Option.some.inj hb
          exact hsub⟩ rfl (by dsimp only; omega) hblock he
      refine ⟨it, ?_, hvalid, hblocks, hend, ?_⟩
      · rw [← hstep]
        exact newReverse_eq_step layout.nonempty hblock he
      · rw [hkey, hentry, ← hrest, rest_reverse _ rfl (by dsimp only; omega) hblock]
        have hall : layout.blocks = layout.blocks.take (layout.blocks.length - 1) ++ [block] := by
          conv_lhs => rw [← List.take_length (l := layout.blocks),
            ← Nat.sub_add_cancel hlen, List.take_add_one, hblock]
          rfl
        rw [Nat.sub_add_cancel hfirst, List.take_length, if_pos rfl, ← layout.flatten_eq]
        conv_rhs => rw [hall, List.flatten_append, List.flatten_singleton]

theorem length_rest_le
    (it : TableIterator) :
    it.rest.length ≤ it.blocks.flatten.length := by
  unfold rest
  split_ifs
  · exact Nat.zero_le _
  · rw [List.length_reverse]
    refine List.Sublist.length_le ?_
    cases hblock : it.blocks[it.blockPos.toNat]? with
    | none =>
        rw [Option.getD_none, List.take_nil, List.append_nil]
        exact (List.take_sublist _ _).flatten
    | some block =>
        have htake : (it.blocks.take (it.blockPos.toNat + 1)).flatten =
            (it.blocks.take it.blockPos.toNat).flatten ++ block := by
          rw [List.take_add_one, hblock, Option.toList_some, List.flatten_append,
            List.flatten_singleton]
        rw [Option.getD_some]
        refine List.Sublist.trans ?_ (htake ▸ (List.take_sublist _ _).flatten)
        exact (List.Sublist.refl _).append (List.take_sublist _ _)
  · exact ((List.drop_sublist _ _).trans (List.drop_sublist _ _).flatten).length_le

end Step
end TableIterator
end LsmStore
