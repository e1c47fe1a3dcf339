import LsmStore.Logic.System

/-!
# The steps of the flusher

What `do_memtable_compaction` can do next, one case per kind of step.  The
invariants of the database are proved over these cases, so the function itself
is taken apart only here.
-/

namespace LsmStore
namespace Logic

open Wal

/-- A step of the flusher, with what it found. -/
inductive FlusherStep (params : Params) (s : DbState) : DbState → Prop
  /-- There is nothing to flush, level 0 is being read, or the flusher has failed. -/
  | stay : FlusherStep params s s
  | start {logOffset : Nat} {mem : Memtable} {rest : List (Nat × Memtable)}
      (hpc : s.flusher = .idle)
      (himm : s.immMemtables = (logOffset, mem) :: rest) :
      FlusherStep params s { s with flusher := .building logOffset mem }
  | reserve {logOffset : Nat} {mem : Memtable}
      (hpc : s.flusher = .building logOffset mem)
      (hne : mem.entries ≠ []) :
      FlusherStep params s
        { s with
          manifest := s.manifest.generateNextTableId.1
          flusher := .writing logOffset mem s.manifest.generateNextTableId.2 }
  | write {logOffset tableId : Nat} {mem : Memtable}
      (hpc : s.flusher = .writing logOffset mem tableId)
      (hne : mem.entries ≠ []) :
      FlusherStep params s
        { s.writeTable params (SortedTable.ofMemtable params tableId mem hne) with
          flusher := .adding logOffset mem (SortedTable.ofMemtable params tableId mem hne) }
  | add {logOffset : Nat} {mem : Memtable} {table : SortedTable}
      (hpc : s.flusher = .adding logOffset mem table)
      (hread : s.isRead 0 = false) :
      FlusherStep params s
        { s.setLevel 0 ((s.levels 0).addL0Table table) with
          flusher := .settingSeqNumber logOffset mem table.getId }
  | setSeqNumber {logOffset tableId : Nat} {mem : Memtable}
      (hpc : s.flusher = .settingSeqNumber logOffset mem tableId) :
      FlusherStep params s
        (s.flusherCalls (s.manifest.setSeqNumberOffset mem.getNextSeqNumber)
          (.registering logOffset tableId))
  | register {logOffset tableId : Nat}
      (hpc : s.flusher = .registering logOffset tableId) :
      FlusherStep params s
        (s.flusherCalls (s.manifest.updateTableSet [(0, tableId)] []) (.settingOffset logOffset))
  | setOffset {logOffset : Nat}
      (hpc : s.flusher = .settingOffset logOffset)
      (hlt : s.logFlushPos < logOffset) :
      FlusherStep params s
        { s with
          flusher := .truncating logOffset (s.logFlushPos / pageSize) (logOffset / pageSize) }
  | removePage {logOffset fpos newFilePos : Nat}
      (hpc : s.flusher = .truncating logOffset fpos newFilePos)
      (hlt : fpos < newFilePos) :
      FlusherStep params s
        { s with
          removedPages := fpos :: s.removedPages
          flusher := .truncating logOffset (fpos + 1) newFilePos }
  | truncated {logOffset fpos newFilePos : Nat}
      (hpc : s.flusher = .truncating logOffset fpos newFilePos)
      (hle : newFilePos ≤ fpos) :
      FlusherStep params s
        { s with logFlushPos := logOffset, flusher := .settingLogOffset logOffset }
  | setLogOffset {logOffset : Nat}
      (hpc : s.flusher = .settingLogOffset logOffset) :
      FlusherStep params s (s.flusherCalls (s.manifest.setLogOffset logOffset) .popping)
  | pop {imm : Nat × Memtable} {rest : List (Nat × Memtable)}
      (hpc : s.flusher = .popping)
      (himm : s.immMemtables = imm :: rest) :
      FlusherStep params s { s with immMemtables := rest, flusher := .idle }
  /-- The assertions of `get_min_max_key` and of the table builder. -/
  | failEmpty {logOffset : Nat} {mem : Memtable}
      (hpc : s.flusher = .building logOffset mem ∨
        ∃ tableId, s.flusher = .writing logOffset mem tableId)
      (hempty : mem.entries = []) :
      FlusherStep params s { s with flusher := .panicked .memtableEmpty }
  /-- The assertion of `set_offset`. -/
  | failOffset {logOffset : Nat}
      (hpc : s.flusher = .settingOffset logOffset)
      (hle : logOffset ≤ s.logFlushPos) :
      FlusherStep params s
        { s with flusher := .panicked (.logOffsetDecreased logOffset s.logFlushPos) }
  | failPop
      (hpc : s.flusher = .popping)
      (himm : s.immMemtables = []) :
      FlusherStep params s { s with flusher := .panicked .nothingToPop }

theorem entries_eq_nil_of_getMinMaxKey
    {mem : Memtable}
    (h : ∀ range, mem.getMinMaxKey ≠ .value range) :
    mem.entries = [] := by
  by_contra hne
  refine h ((mem.entries.head hne).1, (mem.entries.getLast hne).1) ?_
  rw [Memtable.getMinMaxKey, List.head?_eq_some_head hne, List.getLast?_eq_some_getLast hne]

theorem entries_ne_nil_of_getMinMaxKey
    {mem : Memtable} {range : Key × Key}
    (h : mem.getMinMaxKey = .value range) :
    mem.entries ≠ [] := by
  intro hempty
  simp [Memtable.getMinMaxKey, hempty] at h

/-- The function makes one of the steps. -/
theorem flusherStep_doMemtableCompaction
    (params : Params) (s : DbState) :
    FlusherStep params s (doMemtableCompaction params s) := by
  cases hf : s.flusher with
  | idle =>
      simp only [doMemtableCompaction, hf]
      split
      · exact .stay
      · rename_i himm
        exact .start hf himm
  | building logOffset mem =>
      simp only [doMemtableCompaction, hf]
      split
      · rename_i hrange
        exact .reserve hf (entries_ne_nil_of_getMinMaxKey hrange)
      · rename_i hrange
        exact .failEmpty (Or.inl hf) (entries_eq_nil_of_getMinMaxKey hrange)
  | writing logOffset mem tableId =>
      simp only [doMemtableCompaction, hf]
      split_ifs with hne
      · exact .write hf hne
      · exact .failEmpty (Or.inr ⟨tableId, hf⟩) (not_not.mp hne)
  | adding logOffset mem table =>
      simp only [doMemtableCompaction, hf]
      split_ifs with hread
      · exact .stay
      · exact .add hf (Bool.eq_false_of_not_eq_true hread)
  | settingSeqNumber logOffset mem tableId =>
      simp only [doMemtableCompaction, hf]
      exact .setSeqNumber hf
  | registering logOffset tableId =>
      simp only [doMemtableCompaction, hf]
      exact .register hf
  | settingOffset logOffset =>
      simp only [doMemtableCompaction, hf]
      split_ifs with hle
      · exact .failOffset hf hle
      · exact .setOffset hf (not_le.mp hle)
  | truncating logOffset fpos newFilePos =>
      simp only [doMemtableCompaction, hf]
      split_ifs with hlt
      · exact .removePage hf hlt
      · exact .truncated hf (not_lt.mp hlt)
  | settingLogOffset logOffset =>
      simp only [doMemtableCompaction, hf]
      exact .setLogOffset hf
  | popping =>
      simp only [doMemtableCompaction, hf]
      split
      · rename_i himm
        exact .failPop hf himm
      · rename_i himm
        exact .pop hf himm
  | panicked reason =>
      simp only [doMemtableCompaction, hf]
      exact .stay

/-- The call returns. -/
theorem DbState.flusherCalls_of_none
    {s : DbState} {call : Manifest × Option ManifestPanic}
    (hnone : call.2 = none)
    (next : FlusherPc) :
    s.flusherCalls call next = { s with manifest := call.1, flusher := next } := by
  obtain ⟨manifest, outcome⟩ := call
  obtain rfl : outcome = none := hnone
  rfl

theorem DbState.tasks_flusherCalls
    (s : DbState) (call : Manifest × Option ManifestPanic) (next : FlusherPc) :
    (s.flusherCalls call next).tasks = s.tasks := by
  obtain ⟨manifest, outcome⟩ := call
  cases outcome <;> rfl

theorem FlusherStep.tasks
    {params : Params} {s s' : DbState}
    (h : FlusherStep params s s') :
    s'.tasks = s.tasks := by
  cases h <;> first | rfl | exact DbState.tasks_flusherCalls _ _ _

/-! ## The published table -/

namespace DbState

theorem tables_addL0Table
    (s : DbState) (table : SortedTable) :
    (s.setLevel 0 ((s.levels 0).addL0Table table)).tables =
      Function.update s.tables 0 (s.tables 0 ++ [table]) := by
  funext l
  rw [tables_setLevel, Function.update_apply]
  rfl

theorem mem_tables_addL0Table
    {s : DbState} {table t : SortedTable} {l : Nat} :
    t ∈ (s.setLevel 0 ((s.levels 0).addL0Table table)).tables l ↔
      t ∈ s.tables l ∨ (l = 0 ∧ t = table) := by
  rw [tables_addL0Table, mem_update_concat]

theorem placeholders_addL0Table
    (s : DbState) (table : SortedTable) :
    (s.setLevel 0 ((s.levels 0).addL0Table table)).placeholders = s.placeholders := by
  funext l
  rw [placeholders_setLevel]
  split_ifs with hl
  · rw [hl]
    rfl
  · rfl

end DbState

end Logic
end LsmStore
