import LsmStore.Lib.Overrides
import LsmStore.MergeLoop
import LsmStore.Values.IndexPage

/-!
# The values a compaction drops

With the `wisckey` feature the entries of a table refer to values in value
batches.  `compact_level` collects the references of values that it drops, to
have them marked as deleted.  It does so where one entry takes the place of
another one in the second pass of a round, and only there: an entry that is
older than the one found so far is dropped without a word, and an entry that
gives way must not be a deletion, which has no reference.

The value of an entry stands for its reference here; `reference` reads it.
-/

namespace LsmStore

open SortedAssoc NewestMerge
open Values (ValueId)

section Model

variable (reference : Value → ValueId)

def MemtableEntry.getValueId (entry : MemtableEntry) : Option ValueId :=
  entry.getValue.map reference

/-- Second pass: the most recent entry of the key, and the references of those that gave way to
a more recent one. -/
def pickValues (minKey : Key) :
    List TableIterator → Option TableIterator × List ValueId →
      Outcome (Option TableIterator × List ValueId)
  | [], acc => pure acc
  | it :: its, acc =>
      if it.atEnd then pickValues minKey its acc
      else if it.key ≠ minKey then pickValues minKey its acc
      else
        match acc.1 with
        | some other =>
            if other.entry.getSeqNumber < it.entry.getSeqNumber then
              match other.entry.getValueId reference with
              | some vid => pickValues minKey its (some it, acc.2 ++ [vid])
              | none => .panic "called `Option::unwrap()` on a `None` value"
            else pickValues minKey its acc
        | none => pickValues minKey its (some it, acc.2)

/-- The `loop` of `compact_level`, with `deleted_values`. -/
def mergeValues (store : BlockStore) :
    Nat → Option Key → List TableIterator → TableBuilder × List ValueId →
      Outcome (TableBuilder × List ValueId)
  | 0, _, _, _ => .unfinished
  | fuel + 1, lastKey, its, (b, deleted) => do
      let advanced ← advanceIters lastKey its none
      match advanced.2 with
      | none => pure (b, deleted)
      | some minKey => do
          let picked ← pickValues reference minKey advanced.1 (none, deleted)
          match picked.1 with
          | none => .panic "called `Option::unwrap()` on a `None` value"
          | some minIter => do
              let b ← .ofExcept (b.addMerged store minKey minIter.entry)
              mergeValues store fuel (some minKey) advanced.1 (b, picked.2)

/-- `compact_level`, from the selected tables to the new one and `deleted_values`. -/
def mergeInputsValues (store : BlockStore) (layout : (t : SortedTable) → BlockLayout t)
    (tableId : Nat) (parents children : List SortedTable) :
    Outcome (TableBuilder × List ValueId) :=
  match parents with
  | [] => .panic "assertion failed: !parent_tbls_to_compact.is_empty()"
  | first :: others => do
      let minKey := others.foldl (fun m u => min m u.getMin) first.getMin
      let maxKey := others.foldl (fun m u => max m u.getMax) first.getMax
      let minKey := children.foldl (fun m u => min m u.getMin) minKey
      let maxKey := children.foldl (fun m u => max m u.getMax) maxKey
      if minKey ≤ maxKey then
        let its ← newIters layout (parents ++ children)
        let rounds := ((parents ++ children).map fun t => t.entries.length).sum
        let merged ← mergeValues reference store (rounds + 1) none its
          (.new tableId minKey maxKey, [])
        let b ← .ofExcept (merged.1.finish store)
        pure (b, merged.2)
      else .panic "assertion failed: min_key <= max_key"

/-! ## What should be collected -/

/-- The references of the puts among some entries. -/
def putIds (entries : List MemtableEntry) : List ValueId :=
  entries.filterMap (MemtableEntry.getValueId reference)

/-- Every reference of the inputs is in the new table or in `deleted_values`, once for every
entry that has it.  So a reference that only one entry has is not in both. -/
structure ReportsDropped (tables : List SortedTable) (written : Entries)
    (deleted : List ValueId) : Prop where
  dropped : (deleted ++ putIds reference (written.map Prod.snd)).Perm
    (putIds reference ((tables.flatMap SortedTable.entries).map Prod.snd))
  surviving : (putIds reference ((tables.flatMap SortedTable.entries).map Prod.snd)).Nodup →
    ∀ vid ∈ putIds reference (written.map Prod.snd), vid ∉ deleted

end Model

/-- The versions of a key, in the order of the tables. -/
def versions (tables : List SortedTable) (key : Key) : List MemtableEntry :=
  tables.filterMap fun t => t.get key

/-- A put is newer than all versions before it.  A deletion that is newer than all versions
before it is not older than any version behind it. -/
def InOrder (entries : List MemtableEntry) : Prop :=
  ∀ before entry after, entries = before ++ entry :: after →
    (entry.getValue ≠ none → ∀ b ∈ before, b.getSeqNumber < entry.getSeqNumber) ∧
      (entry.getValue = none → (∀ b ∈ before, b.getSeqNumber < entry.getSeqNumber) →
        ∀ a ∈ after, a.getSeqNumber ≤ entry.getSeqNumber)

/-! ## Unwrapping references -/

section Unwrap

variable (reference : Value → ValueId)

/-- The references of some entries; a deletion has none. -/
def unwrapIds : List MemtableEntry → Outcome (List ValueId)
  | [] => .value []
  | entry :: entries =>
      match entry.getValueId reference with
      | some vid => do
          let ids ← unwrapIds entries
          .value (vid :: ids)
      | none => .panic "called `Option::unwrap()` on a `None` value"

variable {reference}

theorem unwrapIds_append
    (xs ys : List MemtableEntry) :
    unwrapIds reference (xs ++ ys) =
      (unwrapIds reference xs >>= fun ids =>
        unwrapIds reference ys >>= fun ids' => .value (ids ++ ids')) := by
  induction xs with
  | nil =>
      rw [List.nil_append, unwrapIds, Outcome.value_bind]
      cases unwrapIds reference ys <;> rfl
  | cons entry xs ih =>
      rw [List.cons_append, unwrapIds, unwrapIds]
      cases entry.getValueId reference with
      | none =>
          rfl
      | some vid =>
          dsimp only
          rw [ih, Outcome.bind_assoc, Outcome.bind_assoc]
          congr 1
          funext ids
          rw [Outcome.bind_assoc]
          rfl

theorem unwrapIds_of_puts
    {entries : List MemtableEntry}
    (h : ∀ entry ∈ entries, entry.getValue ≠ none) :
    unwrapIds reference entries = .value (putIds reference entries) := by
  induction entries with
  | nil =>
      rfl
  | cons entry entries ih =>
      obtain ⟨value, hvalue⟩ := Option.ne_none_iff_exists'.mp (h entry List.mem_cons_self)
      have hid : entry.getValueId reference = some (reference value) := by
        rw [MemtableEntry.getValueId, hvalue, Option.map_some]
      rw [unwrapIds, hid, putIds, List.filterMap_cons, hid]
      dsimp only
      rw [ih fun e he => h e (List.mem_cons_of_mem _ he)]
      rfl

theorem puts_of_unwrapIds
    {entries : List MemtableEntry} {ids : List ValueId}
    (h : unwrapIds reference entries = .value ids) :
    ∀ entry ∈ entries, entry.getValue ≠ none := by
  induction entries generalizing ids with
  | nil =>
      intro entry hentry
      cases hentry
  | cons entry entries ih =>
      rw [unwrapIds] at h
      intro other hother
      cases hvalue : entry.getValue with
      | none =>
          rw [MemtableEntry.getValueId, hvalue] at h
          cases h
      | some value =>
          rw [MemtableEntry.getValueId, hvalue] at h
          obtain ⟨rest, hrest, -⟩ := Outcome.bind_eq_value h
          rcases List.mem_cons.mp hother with rfl | htail
          · rw [hvalue]
            exact Option.some_ne_none value
          · exact ih hrest other htail

end Unwrap

/-! ## The loop -/

section Loop

variable {reference : Value → ValueId} {store : BlockStore}

theorem frontValues_cons
    (minKey : Key) (it : TableIterator) (its : List TableIterator) :
    frontValues minKey (runsOf (it :: its)) =
      if it.atEnd ∨ it.key ≠ minKey then frontValues minKey (runsOf its)
      else it.entry :: frontValues minKey (runsOf its) := by
  rw [frontValues, runsOf, List.map_cons, List.filterMap_cons]
  cases hend : it.atEnd with
  | true =>
      rw [TableIterator.remaining_of_atEnd hend, if_pos (Or.inl rfl)]
      rfl
  | false =>
      rw [TableIterator.remaining_of_not_atEnd hend]
      by_cases hkey : it.key = minKey
      · rw [if_neg (by simp [hkey])]
        simp [frontValue, hkey, frontValues, runsOf]
      · rw [if_pos (Or.inr hkey)]
        simp [frontValue, hkey, frontValues, runsOf]

/-- The second pass collects the references of what is overridden. -/
theorem pickValues_eq
    (minKey : Key) (its : List TableIterator) (minIter : Option TableIterator)
    (deleted : List ValueId) :
    pickValues reference minKey its (minIter, deleted) =
      (unwrapIds reference (overridden MemtableEntry.getSeqNumber
          (minIter.map TableIterator.entry) (frontValues minKey (runsOf its))) >>= fun ids =>
        .value (its.foldl (pickIter minKey) minIter, deleted ++ ids)) := by
  induction its generalizing minIter deleted with
  | nil =>
      have hnone : overridden MemtableEntry.getSeqNumber (minIter.map TableIterator.entry)
          (frontValues minKey (runsOf [])) = [] := by
        cases minIter <;> rfl
      rw [hnone, unwrapIds, Outcome.value_bind, List.append_nil]
      rfl
  | cons it its ih =>
      rw [pickValues, frontValues_cons, List.foldl_cons]
      by_cases hend : it.atEnd = true
      · have hkeep : pickIter minKey minIter it = minIter := if_pos hend
        rw [if_pos hend, if_pos (Or.inl hend), hkeep]
        exact ih minIter deleted
      · by_cases hkey : it.key = minKey
        · have hfront : ¬ (it.atEnd = true ∨ it.key ≠ minKey) := by
            rintro (h | h)
            · exact hend h
            · exact h hkey
          rw [if_neg hend, if_neg (not_not.mpr hkey), if_neg hfront]
          cases minIter with
          | none =>
              have htake : pickIter minKey none it = some it := by
                simp [pickIter, hend, hkey]
              rw [htake]
              exact ih (some it) deleted
          | some other =>
              dsimp only
              rw [Option.map_some, overridden]
              by_cases hlt : other.entry.getSeqNumber < it.entry.getSeqNumber
              · have htake : pickIter minKey (some other) it = some it := by
                  simp [pickIter, hend, hkey, hlt]
                rw [if_pos hlt, if_pos hlt, htake, unwrapIds]
                cases other.entry.getValueId reference with
                | none =>
                    rfl
                | some vid =>
                    dsimp only
                    rw [ih, Outcome.bind_assoc]
                    simp only [Outcome.value_bind, List.append_assoc, List.singleton_append]
                    rfl
              · have hkeep : pickIter minKey (some other) it = some other := by
                  simp [pickIter, hend, hkey, hlt]
                rw [if_neg hlt, if_neg hlt, hkeep]
                exact ih (some other) deleted
        · have hkeep : pickIter minKey minIter it = minIter := by
            simp [pickIter, hend, hkey]
          rw [if_neg hend, if_pos hkey, if_pos (Or.inr hkey), hkeep]
          exact ih minIter deleted

theorem Outcome.ofExcept_ok
    {α : Type} (a : α) :
    Outcome.ofExcept (.ok a) = .value a :=
  rfl

theorem addMerged_of_healthy
    (hwrite : ∀ k, store.write k = none)
    (b : TableBuilder) (key : Key) (entry : MemtableEntry) :
    ∃ b', b.addMerged store key entry = .ok b' := by
  rw [TableBuilder.addMerged_eq, TableBuilder.addEntry]
  split_ifs
  · obtain ⟨b', hfinish, -⟩ := TableBuilder.finishBlock_ok
      (OpenBlock.add key entry b.dataBlock) (hwrite b.blocks.length)
    exact ⟨b', hfinish⟩
  · exact ⟨_, rfl⟩

/-- Only one of the disk and the references can stop the loop. -/
def OneCause (reference : Value → ValueId) (store : BlockStore) (entries : List MemtableEntry) :
    Prop :=
  (∀ k, store.write k = none) ∨ ∃ ids, unwrapIds reference entries = .value ids

theorem OneCause.append_right
    {xs ys : List MemtableEntry}
    (h : OneCause reference store (xs ++ ys)) :
    OneCause reference store ys := by
  refine h.imp_right ?_
  rintro ⟨ids, hids⟩
  refine ⟨_, unwrapIds_of_puts fun entry hentry => ?_⟩
  exact puts_of_unwrapIds hids entry (List.mem_append_right xs hentry)

/-- It does not matter which of the two comes first. -/
theorem OneCause.bind_comm
    {β : Type} {entries : List MemtableEntry}
    (h : OneCause reference store entries)
    (b : TableBuilder) (key : Key) (entry : MemtableEntry)
    (f : TableBuilder → List ValueId → Outcome β) :
    (Outcome.ofExcept (b.addMerged store key entry) >>= fun b' =>
        unwrapIds reference entries >>= f b') =
      (unwrapIds reference entries >>= fun ids =>
        Outcome.ofExcept (b.addMerged store key entry) >>= fun b' => f b' ids) := by
  rcases h with hwrite | ⟨ids, hids⟩
  · obtain ⟨b', hadd⟩ := addMerged_of_healthy hwrite b key entry
    rw [hadd, Outcome.ofExcept_ok]
    rfl
  · rw [hids]
    rfl

theorem ofExcept_addEntries_cons
    {β : Type} (key : Key) (entry : MemtableEntry) (entries : Entries)
    (b : TableBuilder) (f : TableBuilder → Outcome β) :
    (Outcome.ofExcept (b.addEntries store ((key, entry) :: entries)) >>= f) =
      (Outcome.ofExcept (b.addMerged store key entry) >>= fun b' =>
        Outcome.ofExcept (b'.addEntries store entries) >>= f) := by
  rw [TableBuilder.addEntries]
  cases b.addMerged store key entry with
  | error e =>
      rfl
  | ok b' =>
      rfl

/-- **The loop** gives the builder the entries of the merge, and collects the references of what
the rounds override. -/
theorem mergeValues_eq
    {fuel : Nat} {lastKey : Option Key} {its : List TableIterator}
    (b : TableBuilder) (deleted : List ValueId)
    (hvalid : ∀ it ∈ its, it.Valid)
    (hfuel : entryCount ((runsOf its).map (advance lastKey)) < fuel)
    (hcause : OneCause reference store
      (overriddenIn MemtableEntry.getSeqNumber (rounds fuel lastKey (runsOf its)))) :
    mergeValues reference store fuel lastKey its (b, deleted) =
      (unwrapIds reference
          (overriddenIn MemtableEntry.getSeqNumber (rounds fuel lastKey (runsOf its))) >>=
        fun ids => .ofExcept (b.addEntries store
          (NewestMerge.mergeLoop MemtableEntry.getSeqNumber fuel lastKey (runsOf its))) >>=
            fun b' => .value (b', deleted ++ ids)) := by
  induction fuel generalizing lastKey its b deleted with
  | zero =>
      omega
  | succ fuel ih =>
      obtain ⟨its', hadvance, hvalid', hruns⟩ := advanceIters_spec lastKey none hvalid
      rw [mergeValues, hadvance, Outcome.value_bind, NewestMerge.mergeLoop, rounds, ← hruns]
      rw [rounds, ← hruns] at hcause
      rw [← hruns] at hfuel
      dsimp only at hcause ⊢
      cases hmin : (runsOf its').foldl minFront none with
      | none =>
          change _ = (unwrapIds reference [] >>= _)
          rw [unwrapIds, Outcome.value_bind, List.append_nil]
          rfl
      | some key =>
          obtain ⟨hfront, hpick⟩ := foldl_pickFront_ne_none hmin
          have hentry := foldl_pickIter key its' none
          rw [Option.map_none] at hentry
          obtain ⟨it, hit⟩ : ∃ it, its'.foldl (pickIter key) none = some it := by
            refine Option.ne_none_iff_exists'.mp fun hnone => ?_
            rw [hnone] at hentry
            exact hpick hentry.symm
          rw [hit, Option.map_some] at hentry
          -- the round has used up the entry at the front
          have hless := entryCount_map_advance_lt hfront
          have hrounds : overriddenIn MemtableEntry.getSeqNumber
              ((key, frontValues key (runsOf its')) :: rounds fuel (some key) (runsOf its')) =
                overridden MemtableEntry.getSeqNumber none (frontValues key (runsOf its')) ++
                  overriddenIn MemtableEntry.getSeqNumber
                    (rounds fuel (some key) (runsOf its')) := rfl
          rw [hmin] at hcause
          dsimp only at hcause ⊢
          rw [hrounds] at hcause
          rw [pickValues_eq, hit, ← hentry, Outcome.bind_assoc, hrounds, unwrapIds_append,
            Outcome.bind_assoc]
          congr 1
          funext ids
          rw [Outcome.value_bind, Outcome.bind_assoc]
          dsimp only
          simp only [ih _ (deleted ++ ids) hvalid' (by omega) hcause.append_right]
          rw [hcause.append_right.bind_comm]
          congr 1
          funext ids'
          rw [Outcome.value_bind, ofExcept_addEntries_cons]
          simp only [List.append_assoc]

/-- **What `compact_level` returns**: the merge of the inputs, and the references of what its
rounds override, unless there is a deletion among them. -/
theorem mergeInputsValues_eq
    (layout : (t : SortedTable) → BlockLayout t) (tableId : Nat)
    {parents : List SortedTable} (children : List SortedTable)
    (h : parents ≠ [])
    (hcause : OneCause reference store (overriddenIn MemtableEntry.getSeqNumber
      (mergeRounds ((parents ++ children).map SortedTable.entries)))) :
    mergeInputsValues reference store layout tableId parents children =
      (unwrapIds reference (overriddenIn MemtableEntry.getSeqNumber
          (mergeRounds ((parents ++ children).map SortedTable.entries))) >>= fun ids =>
        .ofExcept (TableBuilder.build store tableId (hullMin (parents ++ children))
          (hullMax (parents ++ children)) (SortedTable.mergedEntries (parents ++ children))) >>=
            fun b => .value (b, ids)) := by
  obtain ⟨first, others, rfl⟩ := List.exists_cons_of_ne_nil h
  obtain ⟨hmin, hmax⟩ := hull_append first others children
  have hle : hullMin (first :: others ++ children) ≤ hullMax (first :: others ++ children) :=
    hullMin_le_hullMax (List.cons_ne_nil _ _)
  obtain ⟨its, hits, hvalid, hruns⟩ := newIters_spec layout (first :: others ++ children)
  have hcount : ((first :: others ++ children).map fun t => t.entries.length).sum =
      entryCount (runsOf its) := by
    rw [hruns, entryCount, List.map_map]
    rfl
  rw [← hruns] at hcause
  unfold mergeInputsValues
  dsimp only
  rw [← hmin, ← hmax, if_pos hle, hits, Outcome.value_bind, hcount, mergeValues_eq _ _ hvalid
    (Nat.lt_succ_of_le (entryCount_map_advance_le none _)) hcause, hruns, Outcome.bind_assoc]
  change (unwrapIds reference (overriddenIn MemtableEntry.getSeqNumber (mergeRounds _)) >>= _) = _
  congr 1
  funext ids
  rw [Outcome.ofExcept_build, Outcome.bind_assoc, Outcome.bind_assoc]
  rfl

end Loop

/-! ## What the rounds drop -/

section Dropped

variable {reference : Value → ValueId} {tables : List SortedTable}

/-- What the rounds of a compaction override. -/
def overriddenEntries (tables : List SortedTable) : List MemtableEntry :=
  overriddenIn MemtableEntry.getSeqNumber (mergeRounds (tables.map SortedTable.entries))

/-- What the rounds of a compaction skip. -/
def skippedEntries (tables : List SortedTable) : List MemtableEntry :=
  skippedIn MemtableEntry.getSeqNumber (mergeRounds (tables.map SortedTable.entries))

theorem values_eq_versions
    (key : Key) :
    values (tables.map SortedTable.entries) key = versions tables key := by
  rw [values, versions, List.filterMap_map]
  rfl

theorem mem_overriddenEntries
    (entry : MemtableEntry) :
    entry ∈ overriddenEntries tables ↔ ∃ key before after,
      versions tables key = before ++ entry :: after ∧
        (∀ b ∈ before, b.getSeqNumber < entry.getSeqNumber) ∧
          ∃ a ∈ after, entry.getSeqNumber < a.getSeqNumber := by
  rw [overriddenEntries, overriddenIn,
    mem_flatMap_mergeRounds (SortedTable.sorted_runs tables) rfl]
  refine exists_congr fun key => ?_
  rw [mem_overridden_iff, values_eq_versions]
  simp

theorem mem_skippedEntries
    (entry : MemtableEntry) :
    entry ∈ skippedEntries tables ↔ ∃ key before after,
      versions tables key = before ++ entry :: after ∧
        ¬ ∀ b ∈ before, b.getSeqNumber < entry.getSeqNumber := by
  rw [skippedEntries, skippedIn, mem_flatMap_mergeRounds (SortedTable.sorted_runs tables) rfl]
  refine exists_congr fun key => ?_
  rw [mem_skipped_iff, values_eq_versions]
  simp

/-- The versions are in order if only puts are overridden, and only deletions skipped. -/
theorem inOrder_iff :
    (∀ key, InOrder (versions tables key)) ↔
      (∀ entry ∈ overriddenEntries tables, entry.getValue ≠ none) ∧
        ∀ entry ∈ skippedEntries tables, entry.getValue = none := by
  constructor
  · intro h
    refine ⟨fun entry hentry hnone => ?_, fun entry hentry => ?_⟩
    · obtain ⟨key, before, after, hsplit, hbefore, a, ha, hlt⟩ :=
        (mem_overriddenEntries entry).mp hentry
      exact absurd hlt (not_lt.mpr ((h key before entry after hsplit).2 hnone hbefore a ha))
    · obtain ⟨key, before, after, hsplit, hbefore⟩ := (mem_skippedEntries entry).mp hentry
      by_contra hput
      exact hbefore ((h key before entry after hsplit).1 hput)
  · rintro ⟨hoverridden, hskipped⟩ key before entry after hsplit
    refine ⟨fun hput => ?_, fun hnone hbefore a ha => ?_⟩
    · by_contra hbefore
      exact hput (hskipped entry ((mem_skippedEntries entry).mpr ⟨key, before, after, hsplit,
        hbefore⟩))
    · by_contra hlt
      exact hoverridden entry ((mem_overriddenEntries entry).mpr ⟨key, before, after, hsplit,
        hbefore, a, ha, not_le.mp hlt⟩) hnone

theorem putIds_eq_nil_iff
    (reference : Value → ValueId) {entries : List MemtableEntry} :
    putIds reference entries = [] ↔ ∀ entry ∈ entries, entry.getValue = none := by
  rw [putIds, List.filterMap_eq_nil_iff]
  simp [MemtableEntry.getValueId]

/-- The references of the inputs are those of the merge and of what it drops. -/
theorem perm_putIds
    (reference : Value → ValueId) (tables : List SortedTable) :
    (putIds reference ((tables.flatMap SortedTable.entries).map Prod.snd)).Perm
      ((putIds reference (overriddenEntries tables) ++
          putIds reference ((SortedTable.mergedEntries tables).map Prod.snd)) ++
        putIds reference (skippedEntries tables)) := by
  have hperm := (perm_merge MemtableEntry.getSeqNumber
    (SortedTable.sorted_runs tables)).filterMap (MemtableEntry.getValueId reference)
  rw [List.filterMap_append, List.filterMap_append, ← List.append_assoc] at hperm
  exact hperm.trans (List.Perm.append_right _ List.perm_append_comm)

/-- Reporting what is overridden is reporting everything that is dropped if no put is skipped. -/
theorem reportsDropped_iff :
    ReportsDropped reference tables (SortedTable.mergedEntries tables)
        (putIds reference (overriddenEntries tables)) ↔
      ∀ entry ∈ skippedEntries tables, entry.getValue = none := by
  rw [← putIds_eq_nil_iff reference]
  have hperm := perm_putIds reference tables
  constructor
  · intro h
    have hlength := (h.dropped.trans hperm).length_eq
    rw [List.length_append, List.length_append, List.length_append] at hlength
    exact List.eq_nil_of_length_eq_zero (by omega)
  · intro hnil
    rw [hnil, List.append_nil] at hperm
    refine ⟨hperm.symm, fun hnodup vid hvid hdeleted => ?_⟩
    exact List.disjoint_of_nodup_append (hperm.nodup_iff.mp hnodup) hdeleted hvid

/-- **Dropped values**: `compact_level` reports the value of every put that is not in the new
table, whatever the disk does, if the versions of each key come in order: no put is behind a
version that is at least as new, and no deletion is the newest version so far when a newer
one comes. -/
theorem dropped_values_reported_iff
    (reference : Value → ValueId) (layout : (t : SortedTable) → BlockLayout t) (tableId : Nat)
    (parents children : List SortedTable)
    (hparents : parents ≠ []) :
    (∀ store, (∃ k, store.write k ≠ none ∧
          ∃ e, mergeInputsValues reference store layout tableId parents children = .error e) ∨
        ∃ b deleted, mergeInputsValues reference store layout tableId parents children =
            .value (b, deleted) ∧
          ReportsDropped reference (parents ++ children) b.blocks.flatten deleted) ↔
      ∀ key, InOrder (versions (parents ++ children) key) := by
  rw [inOrder_iff]
  constructor
  · intro h
    -- on a disk that works the loop can only be stopped by a deletion
    rcases h healthyStore with ⟨k, hfail, -⟩ | ⟨b, deleted, hmerge, hreports⟩
    · exact absurd rfl hfail
    · rw [mergeInputsValues_eq layout tableId children hparents (Or.inl fun _ => rfl)] at hmerge
      obtain ⟨ids, hids, hmerge⟩ := Outcome.bind_eq_value hmerge
      obtain ⟨built, hbuilt, hpair⟩ := Outcome.bind_eq_value hmerge
      obtain ⟨b', hbuild, -, hflatten⟩ := (TableBuilder.build_spec healthyStore tableId
        (hullMin (parents ++ children)) (hullMax (parents ++ children))
        (SortedTable.mergedEntries (parents ++ children))).1 fun _ _ => rfl
      have hputs := puts_of_unwrapIds hids
      rw [unwrapIds_of_puts hputs] at hids
      rw [hbuild] at hbuilt
      cases hids
      cases hbuilt
      cases hpair
      rw [hflatten] at hreports
      exact ⟨hputs, reportsDropped_iff.mp hreports⟩
  · rintro ⟨hputs, hskipped⟩ store
    have hids : unwrapIds reference (overriddenEntries (parents ++ children)) = _ :=
      unwrapIds_of_puts hputs
    rw [mergeInputsValues_eq layout tableId children hparents (Or.inr ⟨_, hids⟩)]
    obtain ⟨hok, herror⟩ := TableBuilder.build_spec store tableId (hullMin (parents ++ children))
      (hullMax (parents ++ children)) (SortedTable.mergedEntries (parents ++ children))
    change (∃ k, _ ∧ ∃ e, (unwrapIds reference (overriddenEntries _) >>= _) = _) ∨
      ∃ b deleted, (unwrapIds reference (overriddenEntries _) >>= _) = _ ∧ _
    rw [hids, Outcome.value_bind]
    by_cases hwrite : ∀ k ≤ TableBuilder.numBlocks store
        (SortedTable.mergedEntries (parents ++ children)).length, store.write k = none
    · obtain ⟨b, hbuild, -, hflatten⟩ := hok hwrite
      rw [hbuild]
      refine Or.inr ⟨b, _, rfl, ?_⟩
      rw [hflatten]
      exact reportsDropped_iff.mpr hskipped
    · push Not at hwrite
      obtain ⟨k, hk, hfail⟩ := hwrite
      obtain ⟨e, hbuild⟩ := herror ⟨k, hk, hfail⟩
      rw [hbuild]
      exact Or.inl ⟨k, hfail, e, rfl⟩

end Dropped

/-- A reference whose batch is the first byte. -/
def byteReference (value : Value) : ValueId :=
  ((value.data.headD 0).toNat, 0)

/-- Two versions of a key with the older one first: its value is reported. -/
theorem dropped_values_reported_in_order :
    let key : Key := ByteVec.ofList [1]
    let older := singleEntryTable 1 key (.value 1 (ByteVec.ofList [5]))
    let newer := singleEntryTable 2 key (.value 2 (ByteVec.ofList [6]))
    ∀ store, (∃ k, store.write k ≠ none ∧
        ∃ e, mergeInputsValues byteReference store oneBlock 3 [older, newer] [] = .error e) ∨
      ∃ b deleted, mergeInputsValues byteReference store oneBlock 3 [older, newer] [] =
          .value (b, deleted) ∧
        ReportsDropped byteReference [older, newer] b.blocks.flatten deleted := by
  intro key older newer
  refine (dropped_values_reported_iff byteReference oneBlock 3 [older, newer] []
    (List.cons_ne_nil _ _)).mpr (inOrder_iff.mpr ?_)
  have hoverridden : overriddenEntries [older, newer] = [.value 1 (ByteVec.ofList [5])] := by
    decide +kernel
  have hskipped : skippedEntries [older, newer] = [] := by decide +kernel
  rw [List.append_nil, hoverridden, hskipped]
  simp [MemtableEntry.getValue]

/-- Tables of the parent level come before those of the child level, and so the newer version
before the older one: a value is dropped, and not reported.  If the newer version is behind a
deletion, the call does not even return. -/
theorem dropped_value_not_reported :
    let key : Key := ByteVec.ofList [1]
    let older := singleEntryTable 1 key (.value 1 (ByteVec.ofList [5]))
    let newer := singleEntryTable 2 key (.value 2 (ByteVec.ofList [6]))
    let deletion := singleEntryTable 1 key (.deletion 1)
    (∃ b, mergeInputsValues byteReference healthyStore oneBlock 3 [newer] [older] =
        .value (b, []) ∧
      ¬ ReportsDropped byteReference [newer, older] b.blocks.flatten []) ∧
      mergeInputsValues byteReference healthyStore oneBlock 3 [deletion, newer] [] =
        .panic "called `Option::unwrap()` on a `None` value" := by
  intro key older newer deletion
  have hoverridden : overriddenEntries [newer, older] = [] := by decide +kernel
  have hskipped : skippedEntries [newer, older] = [.value 1 (ByteVec.ofList [5])] := by
    decide +kernel
  have hdeletion : overriddenEntries [deletion, newer] = [.deletion 1] := by decide +kernel
  constructor
  · obtain ⟨b, hbuild, -, hflatten⟩ := (TableBuilder.build_spec healthyStore 3
      (hullMin [newer, older]) (hullMax [newer, older])
      (SortedTable.mergedEntries [newer, older])).1 fun _ _ => rfl
    refine ⟨b, ?_, fun hreports => ?_⟩
    · rw [mergeInputsValues_eq oneBlock 3 [older] (List.cons_ne_nil _ _) (Or.inl fun _ => rfl)]
      change (unwrapIds byteReference (overriddenEntries [newer, older]) >>= _) = _
      rw [hoverridden, unwrapIds, Outcome.value_bind]
      change (Outcome.ofExcept (TableBuilder.build healthyStore 3 (hullMin [newer, older])
        (hullMax [newer, older]) (SortedTable.mergedEntries [newer, older])) >>= _) = _
      rw [hbuild]
      rfl
    · have hnone : putIds byteReference (overriddenEntries [newer, older]) = [] := by
        rw [hoverridden]
        rfl
      rw [hflatten, ← hnone, reportsDropped_iff, hskipped] at hreports
      exact absurd (hreports _ List.mem_cons_self) (Option.some_ne_none _)
  · rw [mergeInputsValues_eq oneBlock 3 [] (List.cons_ne_nil _ _) (Or.inl fun _ => rfl)]
    change (unwrapIds byteReference (overriddenEntries [deletion, newer]) >>= _) = _
    rw [hdeletion]
    rfl

end LsmStore
