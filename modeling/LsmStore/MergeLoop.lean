import LsmStore.TableBuilder
import LsmStore.TableIterator

/-!
# The merge of a compaction

`compact_level` reads all its inputs with table iterators.  Each round of its
loop goes over them twice: the first pass moves every iterator behind the key
that was written last and finds the smallest key, the second one finds the entry
of that key with the highest sequence number.  The entry is given to the builder
of the new table.

The loop writes exactly the merge of the inputs, as `SortedTable.merged` has it.
-/

namespace LsmStore

open SortedAssoc NewestMerge

namespace TableIterator

/-- `while !table_iter.at_end() && table_iter.get_key() <= last_key`. -/
def advanceLoop (lastKey : Key) : Nat → TableIterator → Outcome TableIterator
  | 0, _ => .unfinished
  | fuel + 1, it =>
      if it.atEnd then pure it
      else if it.key ≤ lastKey then do
        let it ← it.step
        advanceLoop lastKey fuel it
      else pure it

/-- Advance the iterator, if needed. -/
def advance (lastKey : Option Key) (it : TableIterator) : Outcome TableIterator :=
  match lastKey with
  | some lastKey => it.advanceLoop lastKey (it.blocks.flatten.length + 2)
  | none => pure it

end TableIterator

/-- The smaller of a key found so far and the key an iterator is at. -/
def minKeyOf (minKey : Option Key) (it : TableIterator) : Option Key :=
  if it.atEnd then minKey
  else
    match minKey with
    | some key => if it.key < key then some it.key else some key
    | none => some it.key

/-- First pass: move every iterator behind the last key, and find the smallest key. -/
def advanceIters (lastKey : Option Key) : List TableIterator → Option Key →
    Outcome (List TableIterator × Option Key)
  | [], minKey => pure ([], minKey)
  | it :: its, minKey => do
      let it ← it.advance lastKey
      let rest ← advanceIters lastKey its (minKeyOf minKey it)
      pure (it :: rest.1, rest.2)

/-- Second pass: the most recent entry of the key. -/
def pickIter (minKey : Key) (minIter : Option TableIterator) (it : TableIterator) :
    Option TableIterator :=
  if it.atEnd then minIter
  else if it.key ≠ minKey then minIter
  else
    match minIter with
    | some other =>
        if other.entry.getSeqNumber < it.entry.getSeqNumber then some it else some other
    | none => some it

/-- An error of the builder is passed on by `?`. -/
def Outcome.ofExcept {α : Type} : Except Error α → Outcome α
  | .ok a => .value a
  | .error e => .error e

/-- The `loop` of `compact_level`. -/
def mergeLoop (store : BlockStore) :
    Nat → Option Key → List TableIterator → TableBuilder → Outcome TableBuilder
  | 0, _, _, _ => .unfinished
  | fuel + 1, lastKey, its, b => do
      let advanced ← advanceIters lastKey its none
      match advanced.2 with
      | none => pure b
      | some minKey =>
          match advanced.1.foldl (pickIter minKey) none with
          | none => .panic "called `Option::unwrap()` on a `None` value"
          | some minIter => do
              let b ← .ofExcept (b.addMerged store minKey minIter.entry)
              mergeLoop store fuel (some minKey) advanced.1 b

/-- One iterator for each table. -/
def newIters (layout : (t : SortedTable) → BlockLayout t) :
    List SortedTable → Outcome (List TableIterator)
  | [] => pure []
  | t :: ts => do
      let it ← TableIterator.new (layout t).blocks false
      let its ← newIters layout ts
      pure (it :: its)

/-- `compact_level`, from the selected tables to the new one.  The range is that of the first
parent, widened by the other parents and by the children. -/
def mergeInputs (store : BlockStore) (layout : (t : SortedTable) → BlockLayout t)
    (tableId : Nat) (parents children : List SortedTable) : Outcome TableBuilder :=
  match parents with
  | [] => .panic "assertion failed: !parent_tbls_to_compact.is_empty()"
  | first :: others => do
      let minKey := others.foldl (fun m u => min m u.getMin) first.getMin
      let maxKey := others.foldl (fun m u => max m u.getMax) first.getMax
      let minKey := children.foldl (fun m u => min m u.getMin) minKey
      let maxKey := children.foldl (fun m u => max m u.getMax) maxKey
      if minKey ≤ maxKey then
        let its ← newIters layout (parents ++ children)
        let rounds := ((parents ++ children).map fun t => t.entries.length).sum
        let b ← mergeLoop store (rounds + 1) none its (.new tableId minKey maxKey)
        .ofExcept (b.finish store)
      else .panic "assertion failed: min_key <= max_key"

/-! ## The passes -/

namespace TableIterator

/-- The entries from the current one on. -/
def remaining (it : TableIterator) : Entries :=
  if it.atEnd then [] else (it.key, it.entry) :: it.rest

section Advance

variable {it : TableIterator}

theorem remaining_of_atEnd
    (h : it.atEnd = true) :
    it.remaining = [] :=
  if_pos h

theorem remaining_of_not_atEnd
    (h : it.atEnd = false) :
    it.remaining = (it.key, it.entry) :: it.rest :=
  if_neg (ne_true_of_eq_false h)

theorem step_remaining
    (h : it.Valid)
    (hend : it.atEnd = false) :
    ∃ it', it.step = .value it' ∧ it'.Valid ∧ it'.blocks = it.blocks ∧
      it'.remaining = it.rest := by
  cases hrest : it.rest with
  | nil =>
      obtain ⟨it', hstep, hvalid, hblocks, hend'⟩ := step_nil h hend hrest
      exact ⟨it', hstep, hvalid, hblocks, remaining_of_atEnd hend'⟩
  | cons e l =>
      obtain ⟨it', hstep, hvalid, hblocks, hend', hkey, hentry, hrest'⟩ := step_cons h hrest
      refine ⟨it', hstep, hvalid, hblocks, ?_⟩
      rw [remaining_of_not_atEnd hend', hkey, hentry, hrest']

theorem advanceLoop_spec
    {fuel : Nat}
    (lastKey : Key)
    (h : it.Valid)
    (hfuel : it.remaining.length < fuel) :
    ∃ it', it.advanceLoop lastKey fuel = .value it' ∧ it'.Valid ∧
      it'.remaining = NewestMerge.advance (some lastKey) it.remaining := by
  induction fuel generalizing it with
  | zero =>
      omega
  | succ fuel ih =>
      rw [advanceLoop]
      cases hend : it.atEnd with
      | true =>
          refine ⟨it, rfl, h, ?_⟩
          rw [remaining_of_atEnd hend]
          rfl
      | false =>
          rw [if_neg Bool.false_ne_true]
          by_cases hle : it.key ≤ lastKey
          · obtain ⟨it₁, hstep, hvalid, -, hrem⟩ := step_remaining h hend
            rw [remaining_of_not_atEnd hend, List.length_cons] at hfuel
            obtain ⟨it', hloop, hvalid', hrem'⟩ := ih hvalid (by rw [hrem]; omega)
            refine ⟨it', ?_, hvalid', ?_⟩
            · rw [if_pos hle, hstep, Outcome.value_bind, hloop]
            · rw [hrem', hrem, remaining_of_not_atEnd hend]
              simp [NewestMerge.advance, hle]
          · refine ⟨it, if_neg hle, h, ?_⟩
            rw [remaining_of_not_atEnd hend]
            simp [NewestMerge.advance, hle]

theorem length_remaining_le
    (it : TableIterator) :
    it.remaining.length ≤ it.blocks.flatten.length + 1 := by
  have hrest := it.length_rest_le
  unfold remaining
  split_ifs
  · exact Nat.zero_le _
  · rw [List.length_cons]
    omega

theorem advance_spec
    (lastKey : Option Key)
    (h : it.Valid) :
    ∃ it', it.advance lastKey = .value it' ∧ it'.Valid ∧
      it'.remaining = NewestMerge.advance lastKey it.remaining := by
  cases lastKey with
  | none =>
      exact ⟨it, rfl, h, rfl⟩
  | some lastKey =>
      exact advanceLoop_spec lastKey h (Nat.lt_succ_of_le it.length_remaining_le)

end Advance
end TableIterator

/-- What the iterators of a list have left. -/
def runsOf (its : List TableIterator) : List Entries :=
  its.map TableIterator.remaining

theorem minKeyOf_eq
    (minKey : Option Key) (it : TableIterator) :
    minKeyOf minKey it = minFront minKey it.remaining := by
  unfold minKeyOf
  cases hend : it.atEnd with
  | true =>
      rw [TableIterator.remaining_of_atEnd hend]
      rfl
  | false =>
      rw [TableIterator.remaining_of_not_atEnd hend]
      cases minKey <;> rfl

theorem advanceIters_spec
    {its : List TableIterator}
    (lastKey minKey : Option Key)
    (h : ∀ it ∈ its, it.Valid) :
    ∃ its', advanceIters lastKey its minKey =
        .value (its', (runsOf its').foldl minFront minKey) ∧
      (∀ it ∈ its', it.Valid) ∧ runsOf its' = (runsOf its).map (advance lastKey) := by
  induction its generalizing minKey with
  | nil =>
      exact ⟨[], rfl, h, rfl⟩
  | cons it its ih =>
      obtain ⟨it', hadvance, hvalid, hrem⟩ :=
        TableIterator.advance_spec lastKey (h it List.mem_cons_self)
      obtain ⟨its', hrest, hvalid', hruns⟩ :=
        ih (minKeyOf minKey it') fun it hit => h it (List.mem_cons_of_mem _ hit)
      refine ⟨it' :: its', ?_, ?_, ?_⟩
      · rw [advanceIters, hadvance, Outcome.value_bind, hrest, minKeyOf_eq]
        rfl
      · exact List.forall_mem_cons.mpr ⟨hvalid, hvalid'⟩
      · simp only [runsOf, List.map_cons, List.cons.injEq] at hruns ⊢
        exact ⟨hrem, hruns⟩

theorem pickIter_eq
    (minKey : Key) (minIter : Option TableIterator) (it : TableIterator) :
    (pickIter minKey minIter it).map TableIterator.entry =
      pickFront MemtableEntry.getSeqNumber minKey (minIter.map TableIterator.entry)
        it.remaining := by
  unfold pickIter
  cases hend : it.atEnd with
  | true =>
      rw [TableIterator.remaining_of_atEnd hend]
      cases minIter <;> rfl
  | false =>
      rw [TableIterator.remaining_of_not_atEnd hend, if_neg Bool.false_ne_true]
      by_cases hkey : it.key = minKey
      · rw [if_neg (not_not.mpr hkey)]
        cases minIter with
        | none =>
            simp [pickFront, hkey]
        | some other =>
            simp only [pickFront, Option.map_some, if_pos hkey]
            split_ifs <;> rfl
      · rw [if_pos hkey]
        cases minIter <;> simp [pickFront, hkey]

theorem foldl_pickIter
    (minKey : Key) (its : List TableIterator) (minIter : Option TableIterator) :
    (its.foldl (pickIter minKey) minIter).map TableIterator.entry =
      (runsOf its).foldl (pickFront MemtableEntry.getSeqNumber minKey)
        (minIter.map TableIterator.entry) := by
  induction its generalizing minIter with
  | nil =>
      rfl
  | cons it its ih =>
      rw [List.foldl_cons, ih, pickIter_eq]
      rfl

/-! ## The loop -/

/-- A key that was found in the first pass is found again in the second. -/
theorem foldl_pickFront_ne_none
    {runs : List Entries} {key : Key}
    (h : runs.foldl minFront none = some key) :
    (∃ run ∈ runs, ∃ e rest, run = e :: rest ∧ e.1 = key) ∧
      runs.foldl (pickFront MemtableEntry.getSeqNumber key) none ≠ none := by
  obtain ⟨⟨run, hrun, hhead⟩, -⟩ := (foldl_minFront runs).2 key h
  cases run with
  | nil =>
      cases hhead
  | cons e rest =>
      obtain rfl : e.1 = key := Option.some.inj hhead
      refine ⟨⟨e :: rest, hrun, e, rest, rfl, rfl⟩, ?_⟩
      intro hnone
      refine (foldl_pickFront MemtableEntry.getSeqNumber e.1 runs).1 hnone e.2 ⟨_, hrun, ?_⟩
      simp [frontValue]

/-- The loop gives the builder the entries of the merge, one after the other. -/
theorem mergeLoop_eq
    (store : BlockStore) {fuel : Nat} {lastKey : Option Key} {its : List TableIterator}
    (b : TableBuilder)
    (hvalid : ∀ it ∈ its, it.Valid)
    (hfuel : entryCount ((runsOf its).map (advance lastKey)) < fuel) :
    mergeLoop store fuel lastKey its b =
      .ofExcept (b.addEntries store
        (NewestMerge.mergeLoop MemtableEntry.getSeqNumber fuel lastKey (runsOf its))) := by
  induction fuel generalizing lastKey its b with
  | zero =>
      omega
  | succ fuel ih =>
      obtain ⟨its', hadvance, hvalid', hruns⟩ := advanceIters_spec lastKey none hvalid
      rw [mergeLoop, hadvance, Outcome.value_bind, NewestMerge.mergeLoop, ← hruns]
      rw [← hruns] at hfuel
      dsimp only
      cases hmin : (runsOf its').foldl minFront none with
      | none =>
          rfl
      | some key =>
          dsimp only
          obtain ⟨hfront, hpick⟩ := foldl_pickFront_ne_none hmin
          have hentry := foldl_pickIter key its' none
          rw [Option.map_none] at hentry
          cases hiter : its'.foldl (pickIter key) none with
          | none =>
              rw [hiter] at hentry
              exact absurd hentry.symm hpick
          | some it =>
              rw [hiter, Option.map_some] at hentry
              rw [← hentry]
              dsimp only
              rw [TableBuilder.addEntries]
              cases hadd : b.addMerged store key it.entry with
              | error e =>
                  rfl
              | ok b' =>
                  -- the round has used up the entry at the front
                  have hless := entryCount_map_advance_lt hfront
                  exact ih b' hvalid' (by omega)

theorem newIters_spec
    (layout : (t : SortedTable) → BlockLayout t) (tables : List SortedTable) :
    ∃ its, newIters layout tables = .value its ∧ (∀ it ∈ its, it.Valid) ∧
      runsOf its = tables.map SortedTable.entries := by
  induction tables with
  | nil =>
      exact ⟨[], rfl, by simp, rfl⟩
  | cons t ts ih =>
      obtain ⟨its, hits, hvalid, hruns⟩ := ih
      obtain ⟨it, hit, hvalid', -, hend, hentries⟩ := TableIterator.new_spec (layout t) false
      refine ⟨it :: its, ?_, List.forall_mem_cons.mpr ⟨hvalid', hvalid⟩, ?_⟩
      · rw [newIters, hit, Outcome.value_bind, hits]
        rfl
      · simp only [runsOf, List.map_cons, List.cons.injEq] at hruns ⊢
        exact ⟨(TableIterator.remaining_of_not_atEnd hend).trans hentries, hruns⟩

theorem hull_append
    (first : SortedTable) (others children : List SortedTable) :
    hullMin (first :: others ++ children) = children.foldl (fun m u => min m u.getMin)
        (others.foldl (fun m u => min m u.getMin) first.getMin) ∧
      hullMax (first :: others ++ children) = children.foldl (fun m u => max m u.getMax)
        (others.foldl (fun m u => max m u.getMax) first.getMax) := by
  rw [List.cons_append, hullMin, hullMax, List.foldl_append, List.foldl_append]
  exact ⟨rfl, rfl⟩

theorem hullMin_le_hullMax
    {tables : List SortedTable}
    (h : tables ≠ []) :
    hullMin tables ≤ hullMax tables := by
  obtain ⟨t, ht⟩ := List.exists_mem_of_ne_nil tables h
  obtain ⟨hmin, hmax⟩ := hull_covers ht
  exact le_trans hmin (le_trans t.min_le_max hmax)

theorem Outcome.ofExcept_build
    (store : BlockStore) (tableId : Nat) (minKey maxKey : Key)
    (entries : Entries) :
    Outcome.ofExcept (TableBuilder.build store tableId minKey maxKey entries) =
      (do
        let b ← Outcome.ofExcept
          (TableBuilder.addEntries store entries (.new tableId minKey maxKey))
        Outcome.ofExcept (b.finish store)) := by
  rw [TableBuilder.build]
  cases TableBuilder.addEntries store entries (.new tableId minKey maxKey) with
  | error e =>
      rfl
  | ok b =>
      rfl

/-- **The new table** is built out of the merge of the inputs, and has their hull as its range. -/
theorem mergeInputs_eq
    (store : BlockStore) (layout : (t : SortedTable) → BlockLayout t) (tableId : Nat)
    {parents : List SortedTable} (children : List SortedTable)
    (h : parents ≠ []) :
    mergeInputs store layout tableId parents children =
      .ofExcept (TableBuilder.build store tableId (hullMin (parents ++ children))
        (hullMax (parents ++ children)) (SortedTable.mergedEntries (parents ++ children))) := by
  obtain ⟨first, others, rfl⟩ := List.exists_cons_of_ne_nil h
  obtain ⟨hmin, hmax⟩ := hull_append first others children
  have hle : hullMin (first :: others ++ children) ≤ hullMax (first :: others ++ children) :=
    hullMin_le_hullMax (List.cons_ne_nil _ _)
  obtain ⟨its, hits, hvalid, hruns⟩ := newIters_spec layout (first :: others ++ children)
  have hcount : ((first :: others ++ children).map fun t => t.entries.length).sum =
      entryCount (runsOf its) := by
    rw [hruns, entryCount, List.map_map]
    rfl
  unfold mergeInputs
  dsimp only
  rw [← hmin, ← hmax, if_pos hle, hits, Outcome.value_bind, hcount,
    mergeLoop_eq store _ hvalid (Nat.lt_succ_of_le (entryCount_map_advance_le none _)), hruns,
    Outcome.ofExcept_build]
  rfl

/-! ## What the new table holds -/

/-- The keys of some tables. -/
def keysOf (tables : List SortedTable) : Set Key :=
  { key | ∃ t ∈ tables, ∃ entry, (key, entry) ∈ t.entries }

/-- An entry of a table, such that no table has one of the key with a larger sequence number. -/
structure IsNewestOf (tables : List SortedTable) (key : Key) (entry : MemtableEntry) : Prop where
  has : ∃ t ∈ tables, (key, entry) ∈ t.entries
  newest : ∀ t ∈ tables, ∀ older, (key, older) ∈ t.entries →
    older.getSeqNumber ≤ entry.getSeqNumber

/-- The entries are in order, and are exactly the newest ones. -/
structure KeepsNewest (tables : List SortedTable) (entries : Entries) :
    Prop where
  sorted : entries.Pairwise fun a b => a.1 < b.1
  keys : ∀ key, (∃ entry, (key, entry) ∈ entries) ↔ key ∈ keysOf tables
  newest : ∀ key entry, (key, entry) ∈ entries ↔ IsNewestOf tables key entry

/-- No two entries of a key have the same sequence number. -/
def DistinctVersions (tables : List SortedTable) : Prop :=
  ∀ t ∈ tables, ∀ u ∈ tables, ∀ key a b, (key, a) ∈ t.entries → (key, b) ∈ u.entries →
    a.getSeqNumber = b.getSeqNumber → a = b

theorem keepsNewest_mergedEntries
    {tables : List SortedTable}
    (h : DistinctVersions tables) :
    KeepsNewest tables (SortedTable.mergedEntries tables) := by
  have hsorted : Sorted (SortedTable.mergedEntries tables) :=
    merge_sorted _ (SortedTable.sorted_runs tables)
  refine ⟨hsorted, ?_, ?_⟩
  · intro key
    constructor
    · rintro ⟨entry, hmem⟩
      obtain ⟨t, ht, hentry⟩ := SortedTable.mem_of_mem_mergedEntries hmem
      exact ⟨t, ht, entry, hentry⟩
    · rintro ⟨t, ht, entry, hentry⟩
      obtain ⟨newer, hmem, -⟩ := SortedTable.exists_mem_mergedEntries ht hentry
      exact ⟨newer, hmem⟩
  · intro key entry
    constructor
    · intro hmem
      refine ⟨SortedTable.mem_of_mem_mergedEntries hmem, ?_⟩
      intro t ht older holder
      obtain ⟨newer, hnewer, hle⟩ := SortedTable.exists_mem_mergedEntries ht holder
      have hsame : some newer = some entry :=
        (lookup_of_mem hsorted hnewer).symm.trans (lookup_of_mem hsorted hmem)
      rw [← Option.some.inj hsame]
      exact hle
    · rintro ⟨⟨t, ht, hentry⟩, hnewest⟩
      obtain ⟨newer, hmem, hle⟩ := SortedTable.exists_mem_mergedEntries ht hentry
      obtain ⟨u, hu, hnewer⟩ := SortedTable.mem_of_mem_mergedEntries hmem
      have hge := hnewest u hu newer hnewer
      rw [h t ht u hu key entry newer hentry hnewer (le_antisymm hle hge)]
      exact hmem

/-- The recorded range of tables that are tight is that of their keys. -/
theorem isLeast_hullMin
    {tables : List SortedTable}
    (h : tables ≠ [])
    (htight : ∀ t ∈ tables, t.Tight) :
    IsLeast (keysOf tables) (hullMin tables) ∧ IsGreatest (keysOf tables) (hullMax tables) := by
  obtain ⟨⟨t, ht, hmin⟩, ⟨t', ht', hmax⟩⟩ := exists_mem_hull h
  obtain ⟨entry, hentry⟩ := (htight t ht).min_mem
  obtain ⟨entry', hentry'⟩ := (htight t' ht').max_mem
  refine ⟨⟨⟨t, ht, entry, hmin ▸ hentry⟩, ?_⟩, ⟨⟨t', ht', entry', hmax ▸ hentry'⟩, ?_⟩⟩
  · rintro key ⟨u, hu, other, hother⟩
    exact le_trans (hull_covers hu).1 (u.in_range _ hother).1
  · rintro key ⟨u, hu, other, hother⟩
    exact le_trans (u.in_range _ hother).2 (hull_covers hu).2

/-- **The merge keeps the newest versions**: out of the selected tables `compact_level` builds
one that holds each of their keys once, in order, with the entry that has the largest sequence
number; its range is the smallest one that covers theirs.  The loop ends, and the only thing
that can go wrong is a write to the disk. -/
theorem compaction_keeps_newest
    (store : BlockStore) (layout : (t : SortedTable) → BlockLayout t) (tableId : Nat)
    (parents children : List SortedTable)
    (hparents : parents ≠ [])
    (hdistinct : DistinctVersions (parents ++ children)) :
    (∃ k, store.write k ≠ none ∧
        ∃ e, mergeInputs store layout tableId parents children = .error e) ∨
      ∃ b, mergeInputs store layout tableId parents children = .value b ∧
        b.identifier = tableId ∧
        KeepsNewest (parents ++ children) b.blocks.flatten ∧
        IsLeast { key | ∃ t ∈ parents ++ children, t.getMin = key } b.minKey ∧
        IsGreatest { key | ∃ t ∈ parents ++ children, t.getMax = key } b.maxKey ∧
        ((∀ t ∈ parents ++ children, t.Tight) →
          IsLeast (keysOf (parents ++ children)) b.minKey ∧
            IsGreatest (keysOf (parents ++ children)) b.maxKey) := by
  have hne : parents ++ children ≠ [] := List.append_ne_nil_of_left_ne_nil hparents children
  rw [mergeInputs_eq store layout tableId children hparents]
  obtain ⟨hok, herror⟩ := TableBuilder.build_spec store tableId (hullMin (parents ++ children))
    (hullMax (parents ++ children)) (SortedTable.mergedEntries (parents ++ children))
  by_cases hwrite : ∀ k ≤ TableBuilder.numBlocks store
      (SortedTable.mergedEntries (parents ++ children)).length, store.write k = none
  · obtain ⟨b, hbuild, -, hflatten⟩ := hok hwrite
    obtain ⟨hid, hmin, hmax⟩ : b.identifier = tableId ∧
        b.minKey = hullMin (parents ++ children) ∧ b.maxKey = hullMax (parents ++ children) := by
      simpa [TableBuilder.label] using TableBuilder.label_build hbuild
    obtain ⟨hleast, hgreatest⟩ := exists_mem_hull hne
    rw [hbuild]
    refine Or.inr ⟨b, rfl, hid, ?_, ?_, ?_, ?_⟩
    · rw [hflatten]
      exact keepsNewest_mergedEntries hdistinct
    · rw [hmin]
      refine ⟨hleast, ?_⟩
      rintro key ⟨t, ht, rfl⟩
      exact (hull_covers ht).1
    · rw [hmax]
      refine ⟨hgreatest, ?_⟩
      rintro key ⟨t, ht, rfl⟩
      exact (hull_covers ht).2
    · intro htight
      rw [hmin, hmax]
      exact isLeast_hullMin hne htight
  · push Not at hwrite
    obtain ⟨k, hk, hfail⟩ := hwrite
    obtain ⟨e, hbuild⟩ := herror ⟨k, hk, hfail⟩
    rw [hbuild]
    exact Or.inl ⟨k, hfail, e, rfl⟩

/-- A table with a single entry. -/
def singleEntryTable (identifier : Nat) (key : Key) (entry : MemtableEntry) : SortedTable where
  identifier := identifier
  entries := [(key, entry)]
  minKey := key
  maxKey := key
  size := 0
  sorted := List.pairwise_singleton _ _
  nonempty := List.cons_ne_nil _ _
  in_range := by
    intro e he
    rw [List.mem_singleton.mp he]
    exact ⟨le_refl _, le_refl _⟩

/-- A disk on which every write succeeds. -/
def healthyStore : BlockStore where
  maxKeyBlockSize := 2
  dataBlockPath := fun _ => ""
  nextDataBlockId := 1
  write := fun _ => none

/-- A key that was written and then deleted: the merge keeps the deletion. -/
theorem compaction_keeps_newest_deletion :
    let key : Key := ByteVec.ofList [1]
    let put : MemtableEntry := .value 1 (ByteVec.ofList [5])
    let tables := [singleEntryTable 1 key put, singleEntryTable 2 key (.deletion 2)]
    DistinctVersions (tables ++ []) ∧
      ∃ b, mergeInputs healthyStore oneBlock 3 tables [] = .value b ∧
        (key, .deletion 2) ∈ b.blocks.flatten := by
  intro key put tables
  have hdistinct : DistinctVersions (tables ++ []) := by
    intro t ht u hu other a b ha hb hseq
    simp only [tables, List.append_nil, List.mem_cons, List.not_mem_nil, or_false] at ht hu
    rcases ht with rfl | rfl <;> rcases hu with rfl | rfl <;>
      simp_all [singleEntryTable, put, MemtableEntry.getSeqNumber]
  refine ⟨hdistinct, ?_⟩
  rcases compaction_keeps_newest healthyStore oneBlock 3 tables [] (List.cons_ne_nil _ _)
      hdistinct with ⟨k, hfail, -⟩ | ⟨b, hmerge, -, hnewest, -⟩
  · exact absurd rfl hfail
  · refine ⟨b, hmerge, (hnewest.newest key (.deletion 2)).mpr
      ⟨⟨singleEntryTable 2 key (.deletion 2), by simp [tables], List.mem_cons_self⟩, ?_⟩⟩
    intro t ht older holder
    simp only [tables, List.append_nil, List.mem_cons, List.not_mem_nil, or_false] at ht
    rcases ht with rfl | rfl <;>
      simp_all [singleEntryTable, put, MemtableEntry.getSeqNumber]

end LsmStore
