import LsmStore.TableBuilder
import LsmStore.Logic.Registration

/-!
# A compaction that fails

`compact_level` sets the flags of its inputs and puts down a placeholder before
it merges; the writes of the merge may fail, and then the error leaves the
function through `?`.  Nothing on that way gives the flags or the placeholder
back.

Here one task runs `compact_level` with the others standing still, from any
state whatsoever, up to the merge; then the table is built on a disk whose
writes may fail.
-/

namespace LsmStore
namespace Logic

/-- A task makes `n` steps. -/
def taskRun (params : Params) (i : Nat) : Nat → DbState → DbState
  | 0, s => s
  | n + 1, s => taskRun params i n (taskStep params s i)

/-- A call of `compact_level` after `n` steps. -/
def compactSteps (params : Params) (i level n : Nat) (s : DbState) : DbState :=
  taskRun params i n (startCompaction params s i level)

/-- The merge on a disk whose writes may fail: with an error, `compact_level` returns. -/
def mergeTablesOn (store : BlockStore) (params : Params) (s : DbState) (i : Nat)
    (c : Compaction) (tableId : Nat) : DbState × Option Error :=
  match TableBuilder.build store tableId (hullMin c.inputs) (hullMax c.inputs)
      (SortedTable.mergedEntries c.inputs) with
  | .error e => (s.setTask i .idle, some e)
  | .ok _ => (mergeTables params s i c tableId, none)

/-- The levels, the manifest, the flags and the placeholders are as before. -/
structure Restored (s s' : DbState) : Prop where
  tables : s'.tables = s.tables
  manifest : s'.manifest = s.manifest
  flags : s'.compactionFlag = s.compactionFlag
  placeholders : s'.placeholders = s.placeholders

/-- What a call that started in `s` has changed in `s'` while it collects the inputs `c`. -/
structure Collects (s s' : DbState) (c : Compaction) : Prop where
  tables : s'.tables = s.tables
  manifest : s'.manifest = s.manifest
  placeholders : s'.placeholders = s.placeholders
  parents : c.parents ≠ []
  unflagged : ∀ t ∈ c.inputs, s.compactionFlag t.getId = false
  flags : ∀ id, s'.compactionFlag id = (s.compactionFlag id || decide (id ∈ tableIds c.inputs))

/-- What it has changed when it starts to merge into table `tableId`. -/
structure Claims (s s' : DbState) (c : Compaction) (tableId : Nat) : Prop where
  tables : s'.tables = s.tables
  manifest : s'.manifest = s.manifest.generateNextTableId.1
  placeholders : ∃ min max, s'.placeholders = Function.update s.placeholders (c.level + 1)
    (s.placeholders (c.level + 1) ++ [⟨min, max, tableId⟩])
  parents : c.parents ≠ []
  unflagged : ∀ t ∈ c.inputs, s.compactionFlag t.getId = false
  flags : ∀ id, s'.compactionFlag id = (s.compactionFlag id || decide (id ∈ tableIds c.inputs))

/-- What a call that started in `s` has changed in `s'`, as long as it can still get to the
merge. -/
def Progress (s s' : DbState) : TaskPc → Prop
  | .chosen _ _ _ => Restored s s'
  | .closing c _ _ _ _ => Collects s s' c
  | .picked c => Collects s s' c
  | .scanning c _ _ _ => Collects s s' c
  | .placing c _ _ => Collects s s' c
  | .merging c tableId => Claims s s' c tableId
  | _ => True

/-- From here a call does not get to the merge any more. -/
def TaskPc.isPast : TaskPc → Bool
  | idle => true
  | abortingPick _ => true
  | abortingOverlaps _ => true
  | abortingParents _ => true
  | moving _ _ => true
  | installing _ _ => true
  | panicked _ => true
  | _ => false

section Steps

variable {params : Params} {s s' : DbState} {i : Nat} {c : Compaction}

theorem getElem?_setTask
    {pc : TaskPc}
    (hi : i < s.tasks.length) :
    (s.setTask i pc).tasks[i]? = some pc :=
  List.getElem?_set_self hi

theorem progress_of_isPast
    {pc : TaskPc}
    (h : pc.isPast = true) :
    Progress s s' pc := by
  cases pc <;> trivial

theorem abortCompaction_past
    {table : SortedTable} {next : TaskPc}
    (hi : i < s.tasks.length)
    (hnext : next.isPast = true) :
    ∃ pc, (abortCompaction s i table next).tasks[i]? = some pc ∧ pc.isPast = true := by
  unfold abortCompaction
  split_ifs
  · exact ⟨_, List.getElem?_set_self hi, hnext⟩
  · exact ⟨_, List.getElem?_set_self hi, rfl⟩

theorem taskCalls_past
    {call : Manifest × Option ManifestPanic} {next : DbState → DbState}
    (hi : i < s.tasks.length)
    (hnext : ∀ s' : DbState, s'.tasks = s.tasks →
      ∃ pc, (next s').tasks[i]? = some pc ∧ pc.isPast = true) :
    ∃ pc, (s.taskCalls i call next).tasks[i]? = some pc ∧ pc.isPast = true := by
  obtain ⟨manifest, outcome⟩ := call
  cases outcome with
  | none =>
      exact hnext _ rfl
  | some reason =>
      exact ⟨_, List.getElem?_set_self hi, rfl⟩

/-- A call that does not get to the merge goes on not to get there. -/
theorem taskStep_past
    (params : Params)
    {pc : TaskPc}
    (hi : s.tasks[i]? = some pc)
    (hpc : pc.isPast = true) :
    ∃ pc', (taskStep params s i).tasks[i]? = some pc' ∧ pc'.isPast = true := by
  have hlt : i < s.tasks.length := (List.getElem?_eq_some_iff.mp hi).1
  cases pc with
  | idle | panicked =>
      simp only [taskStep, hi]
      exact ⟨_, rfl, rfl⟩
  | abortingPick c | abortingOverlaps c | abortingParents c =>
      simp only [taskStep, hi]
      split
      · exact ⟨_, getElem?_setTask hlt, rfl⟩
      · exact abortCompaction_past hlt rfl
  | moving c tableId =>
      simp only [taskStep, hi, fastCompaction]
      split_ifs
      · exact ⟨_, hi, rfl⟩
      · split
        · exact ⟨_, getElem?_setTask hlt, rfl⟩
        · split
          · exact ⟨_, List.getElem?_set_self hlt, rfl⟩
          · refine taskCalls_past hlt ?_
            intro s' hs'
            refine abortCompaction_past ?_ rfl
            rw [hs']
            exact hlt
  | installing c newTable =>
      simp only [taskStep, hi, installTable]
      split
      · exact ⟨_, hi, rfl⟩
      · split
        · exact ⟨_, List.getElem?_set_self hlt, rfl⟩
        · split
          · exact ⟨_, List.getElem?_set_self hlt, rfl⟩
          · split_ifs
            · refine taskCalls_past hlt ?_
              intro s' hs'
              refine ⟨_, List.getElem?_set_self ?_, rfl⟩
              rw [hs']
              exact hlt
            · exact ⟨_, List.getElem?_set_self hlt, rfl⟩
  | chosen | closing | picked | scanning | placing | merging =>
      cases hpc

theorem Collects.take
    {c' : Compaction} {table : SortedTable} {pc : TaskPc}
    (h : Collects s s' c)
    (hfree : s'.compactionFlag table.getId = false)
    (hparents : c'.parents ≠ [])
    (hinputs : ∀ t, t ∈ c'.inputs ↔ t ∈ c.inputs ∨ t = table) :
    Collects s ((s'.setFlag table.getId true).setTask i pc) c' := by
  refine ⟨h.tables, h.manifest, h.placeholders, hparents, ?_, ?_⟩
  · intro t ht
    rcases (hinputs t).mp ht with hold | rfl
    · exact h.unflagged t hold
    · exact (Bool.or_eq_false_iff.mp ((h.flags _).symm.trans hfree)).1
  · intro id
    have hmem : id ∈ tableIds c'.inputs ↔ id ∈ tableIds c.inputs ∨ id = table.getId := by
      simp only [mem_tableIds_iff, hinputs]
      constructor
      · rintro ⟨t, ht | rfl, rfl⟩
        · exact Or.inl ⟨t, ht, rfl⟩
        · exact Or.inr rfl
      · rintro (⟨t, ht, rfl⟩ | rfl)
        · exact ⟨t, Or.inl ht, rfl⟩
        · exact ⟨table, Or.inr rfl, rfl⟩
    change Function.update s'.compactionFlag table.getId true id = _
    by_cases hid : id = table.getId
    · rw [hid, Function.update_self]
      simp [hmem, ← hid]
    · rw [Function.update_of_ne hid, h.flags id]
      simp [hmem, hid]

theorem Collects.setTask
    {pc : TaskPc}
    (h : Collects s s' c) :
    Collects s (s'.setTask i pc) c :=
  ⟨h.tables, h.manifest, h.placeholders, h.parents, h.unflagged, h.flags⟩

theorem progress_placePlaceholder
    {min max : Key}
    (h : Collects s s' c)
    (hlt : i < s'.tasks.length) :
    ∃ pc, (placePlaceholder s' i c min max).tasks[i]? = some pc ∧
      Progress s (placePlaceholder s' i c min max) pc := by
  rw [placePlaceholder_eq]
  dsimp only
  split_ifs
  · exact ⟨_, getElem?_setTask hlt, trivial⟩
  · split
    · exact ⟨_, List.getElem?_set_self hlt, trivial⟩
    · refine ⟨_, List.getElem?_set_self hlt, ?_, ?_, ⟨min, max, ?_⟩, h.parents, h.unflagged,
        h.flags⟩
      · funext l
        refine (DbState.tables_setLevel _ _ _ l).trans ?_
        rw [← h.tables]
        split_ifs with hl
        · rw [hl]
          rfl
        · rfl
      · rw [← h.manifest]
        rfl
      · funext l
        refine (DbState.placeholders_setLevel _ _ _ l).trans ?_
        rw [← h.placeholders, Function.update_apply]
        rfl

theorem progress_taskStep
    (params : Params)
    {pc : TaskPc}
    (hi : s'.tasks[i]? = some pc)
    (h : Progress s s' pc) :
    ∃ pc', (taskStep params s' i).tasks[i]? = some pc' ∧
      Progress s (taskStep params s' i) pc' := by
  have hlt : i < s'.tasks.length := (List.getElem?_eq_some_iff.mp hi).1
  by_cases hpast : pc.isPast = true
  · obtain ⟨pc', hi', hpast'⟩ := taskStep_past params hi hpast
    exact ⟨pc', hi', progress_of_isPast hpast'⟩
  cases pc with
  | chosen level table offset =>
      obtain ⟨htables, hmanifest, hflags, hplaceholders⟩ := h
      simp only [taskStep, hi, flagChosen]
      split_ifs with hflag hlevel
      · exact ⟨_, getElem?_setTask hlt, trivial⟩
      all_goals
        refine ⟨_, List.getElem?_set_self hlt, htables, hmanifest, hplaceholders,
          List.cons_ne_nil _ _, ?_, ?_⟩
        · intro t ht
          obtain rfl := List.mem_singleton.mp ht
          rw [← hflags]
          exact Bool.eq_false_of_not_eq_true hflag
        · intro id
          change Function.update s'.compactionFlag table.getId true id = _
          rw [← hflags, Function.update_apply]
          by_cases hid : id = table.getId
          · simp [hid, tableIds, Compaction.inputs]
          · simp [hid, tableIds, Compaction.inputs]
  | closing c offsets pos min max =>
      simp only [taskStep, hi, closeOverlaps]
      split
      · exact ⟨_, getElem?_setTask hlt, h.setTask⟩
      · rename_i table hget
        split_ifs with hpos hover hflag
        · exact ⟨_, getElem?_setTask hlt, h.setTask⟩
        · exact ⟨_, getElem?_setTask hlt, trivial⟩
        · refine ⟨_, List.getElem?_set_self hlt,
            Collects.take h (Bool.eq_false_of_not_eq_true hflag) (by simp) ?_⟩
          intro t
          simp only [Compaction.inputs, List.mem_append, List.mem_singleton]
          tauto
        · exact ⟨_, getElem?_setTask hlt, h.setTask⟩
  | picked c =>
      simp only [taskStep, hi]
      split_ifs
      · exact ⟨_, getElem?_setTask hlt, trivial⟩
      · exact ⟨_, getElem?_setTask hlt, h.setTask⟩
  | scanning c pos min max =>
      simp only [taskStep, hi, scanOverlaps]
      split
      · exact ⟨_, getElem?_setTask hlt, h.setTask⟩
      · rename_i table hget
        split_ifs with hover hflag
        · exact ⟨_, getElem?_setTask hlt, trivial⟩
        · refine ⟨_, List.getElem?_set_self hlt,
            Collects.take h (Bool.eq_false_of_not_eq_true hflag) h.parents ?_⟩
          intro t
          simp only [Compaction.inputs, List.mem_append, List.mem_singleton]
          tauto
        · exact ⟨_, getElem?_setTask hlt, h.setTask⟩
  | placing c min max =>
      simp only [taskStep, hi]
      exact progress_placePlaceholder h hlt
  | merging c tableId =>
      simp only [taskStep, hi, mergeTables]
      split_ifs
      · exact ⟨_, List.getElem?_set_self hlt, trivial⟩
      · exact ⟨_, getElem?_setTask hlt, trivial⟩
  | _ => exact absurd rfl hpast

theorem progress_taskRun
    (params : Params)
    {pc : TaskPc}
    (n : Nat)
    (hi : s'.tasks[i]? = some pc)
    (h : Progress s s' pc) :
    ∃ pc', (taskRun params i n s').tasks[i]? = some pc' ∧
      Progress s (taskRun params i n s') pc' := by
  induction n generalizing s' pc with
  | zero =>
      exact ⟨pc, hi, h⟩
  | succ n ih =>
      obtain ⟨pc', hi', h'⟩ := progress_taskStep params hi h
      exact ih hi' h'

theorem progress_startCompaction
    (params : Params)
    (hidle : s.tasks[i]? = some .idle)
    (level : Nat) :
    ∃ pc, (startCompaction params s i level).tasks[i]? = some pc ∧
      Progress s (startCompaction params s i level) pc := by
  have hlt : i < s.tasks.length := (List.getElem?_eq_some_iff.mp hidle).1
  have hframe := (s.levels level).choose_frame level
  have hshared := shared_setLevel hframe.1 hframe.2
  unfold startCompaction
  split_ifs
  · dsimp only
    split
    · exact ⟨_, hidle, trivial⟩
    · exact ⟨_, List.getElem?_set_self hlt, trivial⟩
    · exact ⟨_, List.getElem?_set_self hlt, congrArg Shared.tables hshared, rfl, rfl,
        congrArg Shared.placeholders hshared⟩
  · exact ⟨_, hidle, trivial⟩

/-- What a call holds when it starts to merge. -/
theorem claims_compactSteps
    {level n tableId : Nat}
    (hidle : s.tasks[i]? = some .idle)
    (hmerging : (compactSteps params i level n s).tasks[i]? = some (.merging c tableId)) :
    Claims s (compactSteps params i level n s) c tableId := by
  obtain ⟨pc, hi, hstart⟩ := progress_startCompaction params hidle level
  obtain ⟨pc', hi', h⟩ := progress_taskRun params n hi hstart
  obtain rfl : pc' = .merging c tableId := Option.some.inj (hi'.symm.trans hmerging)
  exact h

end Steps

/-- **A failed compaction gives nothing back.**  A call of `compact_level` from any state gets
to the merge, with some inputs.  It leaves everything as it was, should it return an error,
exactly if none of the writes of the merge fails, so that it does not.  After an error the
table lists are as before, but a table identifier is used up, the flags of all inputs are set,
none of which was set before, and the placeholder is still there. -/
theorem failed_compaction_restores_iff
    (params : Params) (store : BlockStore) (s : DbState) (i level n : Nat) (c : Compaction)
    (tableId : Nat)
    (hidle : s.tasks[i]? = some .idle)
    (hmerging : (compactSteps params i level n s).tasks[i]? = some (.merging c tableId)) :
    let r := mergeTablesOn store params (compactSteps params i level n s) i c tableId
    ((∀ e, r.2 = some e → Restored s r.1) ↔
      ∀ k ≤ TableBuilder.numBlocks store (SortedTable.mergedEntries c.inputs).length,
        store.write k = none) ∧
      ∀ e, r.2 = some e → r.1.tasks[i]? = some .idle ∧ Claims s r.1 c tableId := by
  intro r
  have hclaims := claims_compactSteps hidle hmerging
  have hlt : i < (compactSteps params i level n s).tasks.length :=
    (List.getElem?_eq_some_iff.mp hmerging).1
  obtain ⟨hok, herror⟩ := TableBuilder.build_spec store tableId (hullMin c.inputs)
    (hullMax c.inputs) (SortedTable.mergedEntries c.inputs)
  have hfailed : ∀ e, r.2 = some e → r.1.tasks[i]? = some .idle ∧ Claims s r.1 c tableId := by
    intro e he
    simp only [r, mergeTablesOn] at he ⊢
    split at he
    · exact ⟨getElem?_setTask hlt, hclaims.tables, hclaims.manifest, hclaims.placeholders,
        hclaims.parents, hclaims.unflagged, hclaims.flags⟩
    · cases he
  refine ⟨⟨?_, ?_⟩, hfailed⟩
  · intro hrestored
    by_contra hwrites
    push Not at hwrites
    obtain ⟨e, he⟩ := herror hwrites
    have hr : r.2 = some e := by
      simp only [r, mergeTablesOn, he]
    -- the manifest has moved on to the next identifier
    have hmanifest := (hrestored e hr).manifest.symm.trans (hfailed e hr).2.manifest
    exact absurd (congrArg Manifest.nextTableId hmanifest) (Nat.ne_of_lt (Nat.lt_succ_self _))
  · intro hwrites e he
    obtain ⟨b, hb, -⟩ := hok hwrites
    simp only [r, mergeTablesOn, hb] at he
    cases he

/-- Five tables on level 0. -/
def fiveTables : DbState :=
  (DbState.new smallParams 1).run smallParams
    (writeThenFlush 1 11 ++ writeThenFlush 2 11 ++ writeThenFlush 3 11 ++ writeThenFlush 4 11 ++
      writeThenFlush 5 11)

/-- Their compaction. -/
def fiveInputs : Compaction :=
  ⟨0, fiveTables.tables 0, []⟩

/-- A disk that is full after `count` writes. -/
def fullAfter (count : Nat) : BlockStore where
  maxKeyBlockSize := 1024
  dataBlockPath := fun _ => "key.data"
  nextDataBlockId := 1
  write := fun k => if k < count then none else some "No space left on device (os error 28)"

/-- The two writes of the merge, a data block and the index, fit on the disk. -/
theorem failed_compaction_restores_two_writes :
    let r := mergeTablesOn (fullAfter 2) smallParams
      (compactSteps smallParams 0 0 24 fiveTables) 0 fiveInputs 6
    ∀ e, r.2 = some e → Restored fiveTables r.1 := by
  obtain ⟨hrestored, -⟩ := failed_compaction_restores_iff smallParams (fullAfter 2) fiveTables
    0 0 24 fiveInputs 6 (by decide +kernel) (by decide +kernel)
  exact hrestored.mpr (by decide +kernel)

/-- The disk is full when the index is written: the call returns the error, but all five
tables are flagged and the placeholder is still on level 1. -/
theorem full_disk_leaves_claims :
    let m := compactSteps smallParams 0 0 24 fiveTables
    let r := mergeTablesOn (fullAfter 1) smallParams m 0 fiveInputs 6
    m.tasks = [.merging fiveInputs 6] ∧
      r.2 = some (.io "Failed to write index block" "No space left on device (os error 28)") ∧
      r.1.tasks = [.idle] ∧
      [1, 2, 3, 4, 5].map fiveTables.compactionFlag = [false, false, false, false, false] ∧
      [1, 2, 3, 4, 5].map r.1.compactionFlag = [true, true, true, true, true] ∧
      (r.1.placeholders 1).map TablePlaceholder.id = [6] ∧ ¬ Restored fiveTables r.1 := by
  refine ⟨by decide +kernel, by decide +kernel, by decide +kernel, by decide +kernel,
    by decide +kernel, by decide +kernel, ?_⟩
  intro h
  have hfirst := congrFun h.flags 1
  revert hfirst
  decide +kernel

end Logic
end LsmStore
