import LsmStore.LastWrite
import LsmStore.Lib.Tiers
import LsmStore.Logic.Frame

/-!
# The database refines tiers of versioned maps

The live memtable, the immutable memtable and the levels are the places of a
tiered store, with the sequence number as the rank of a version.  Every step of
the database leaves the tiers alone or is a move of them: a write batch is a
write, a rotation freezes the live map, the flusher copies it to level 0 and
drops it later, and an installed compaction replaces tables.

Together with the history of the write batches this gives the two facts that
reading rests on: every entry anywhere was the last write of its key at the end
of some batch, and the last write is held somewhere.
-/

namespace LsmStore
namespace Logic

open KeyRange Tiers

/-- The places of the tiered store hold entries of tables; newer entries have larger
sequence numbers. -/
abbrev entryRank : MemtableEntry → Nat :=
  MemtableEntry.getSeqNumber

/-- The flusher has published the table of the immutable memtable. -/
def FlusherPc.hasAdded : FlusherPc → Bool
  | settingSeqNumber _ _ _ => true
  | registering _ _ => true
  | settingOffset _ => true
  | truncating _ _ _ => true
  | settingLogOffset _ => true
  | popping => true
  | _ => false

def DbState.tiers (s : DbState) : Tiers Key MemtableEntry SortedTable where
  live := s.memtable.get
  frozen := s.immMemtables.head?.map fun imm => imm.2.get
  copied := s.flusher.hasAdded
  levels := s.tables

/-! ## The flusher and its memtable -/

/-- The immutable memtable the flusher works on. -/
def FlusherAt (imm : List (Nat × Memtable)) : FlusherPc → Prop
  | .building logOffset mem => imm = [(logOffset, mem)]
  | .writing logOffset mem _ => imm = [(logOffset, mem)]
  | .adding logOffset mem table => imm = [(logOffset, mem)] ∧ table.entries = mem.entries
  | .settingSeqNumber logOffset mem _ => imm = [(logOffset, mem)]
  | .registering logOffset _ => ∃ mem, imm = [(logOffset, mem)]
  | .settingOffset logOffset => ∃ mem, imm = [(logOffset, mem)]
  | .truncating logOffset _ _ => ∃ mem, imm = [(logOffset, mem)]
  | .settingLogOffset logOffset => ∃ mem, imm = [(logOffset, mem)]
  | .popping => ∃ entry, imm = [entry]
  | _ => True

/-- The queue holds at most one memtable, the one the flusher is at. -/
structure FlushInv (s : DbState) : Prop where
  short : s.immMemtables.length ≤ 1
  at_pc : FlusherAt s.immMemtables s.flusher

theorem FlushInv.eq_singleton
    {s : DbState} {entry : Nat × Memtable} {rest : List (Nat × Memtable)}
    (h : FlushInv s)
    (himm : s.immMemtables = entry :: rest) :
    s.immMemtables = [entry] := by
  have hshort := h.short
  rw [himm] at hshort ⊢
  cases rest with
  | nil =>
      rfl
  | cons a rest =>
      simp at hshort

theorem FlushInv.of_unnoticed
    {s s' : DbState}
    (h : FlushInv s)
    (hframe : Unnoticed s s') :
    FlushInv s' := by
  refine ⟨?_, ?_⟩
  · rw [hframe.immMemtables]
    exact h.short
  · rw [hframe.immMemtables, hframe.flusher]
    exact h.at_pc

theorem FlushInv.of_installs
    {numLevels : Nat} {s s' : DbState} {i : Nat} {c : Compaction} {t : SortedTable}
    (h : FlushInv s)
    (hinst : Installs numLevels s s' i c t) :
    FlushInv s' := by
  rw [hinst.frame]
  exact ⟨h.short, h.at_pc⟩

theorem flushInv_flusherCalls
    {s : DbState} {call : Manifest × Option ManifestPanic} {next : FlusherPc}
    (h : FlushInv s)
    (hnext : FlusherAt s.immMemtables next) :
    FlushInv (s.flusherCalls call next) := by
  obtain ⟨manifest, outcome⟩ := call
  cases outcome with
  | none =>
      exact ⟨h.short, hnext⟩
  | some reason =>
      exact ⟨h.short, trivial⟩

theorem flushInv_doMemtableCompaction
    {s : DbState}
    (params : Params)
    (h : FlushInv s) :
    FlushInv (doMemtableCompaction params s) := by
  have hat := h.at_pc
  have hstep := flusherStep_doMemtableCompaction params s
  generalize doMemtableCompaction params s = s' at hstep
  cases hstep with
  | stay =>
      exact h
  | start hpc himm =>
      exact ⟨h.short, h.eq_singleton himm⟩
  | reserve hpc hne | setOffset hpc hlt | removePage hpc hlt | truncated hpc hle =>
      rw [hpc] at hat
      exact ⟨h.short, hat⟩
  | write hpc hne =>
      rw [hpc] at hat
      exact ⟨h.short, hat, rfl⟩
  | add hpc hread =>
      rw [hpc] at hat
      exact ⟨h.short, hat.1⟩
  | setSeqNumber hpc =>
      rw [hpc] at hat
      exact flushInv_flusherCalls h ⟨_, hat⟩
  | register hpc =>
      rw [hpc] at hat
      exact flushInv_flusherCalls h hat
  | setLogOffset hpc =>
      rw [hpc] at hat
      obtain ⟨mem, himm⟩ := hat
      exact flushInv_flusherCalls h ⟨_, himm⟩
  | pop hpc himm =>
      have hone := h.eq_singleton himm
      rw [himm] at hone
      cases hone
      exact ⟨Nat.zero_le _, trivial⟩
  | failEmpty hpc hempty =>
      exact ⟨h.short, trivial⟩
  | failOffset hpc hle =>
      exact ⟨h.short, trivial⟩
  | failPop hpc himm =>
      exact ⟨h.short, trivial⟩

/-! ## Steps are moves -/

/-- A step after which the memtable and the history are the same, and the tiers have made at
most one move. -/
structure Quiet (s s' : DbState) : Prop where
  memtable : s'.memtable = s.memtable
  batches : s'.batches = s.batches
  tiers : s'.tiers = s.tiers ∨ Move entryRank SortedTable.get s.tiers s'.tiers

theorem Unnoticed.quiet
    {s s' : DbState}
    (h : Unnoticed s s') :
    Quiet s s' where
  memtable := h.memtable
  batches := h.batches
  tiers := by
    left
    rw [DbState.tiers, DbState.tiers, h.memtable, h.immMemtables, h.flusher, h.tables]

/-- In a list with ascending identifiers the smaller identifier stands first. -/
theorem sublist_of_getId_lt
    {l : List SortedTable} {t u : SortedTable}
    (h : l.Pairwise fun a b => a.getId < b.getId)
    (ht : t ∈ l) (hu : u ∈ l)
    (hlt : t.getId < u.getId) :
    [t, u].Sublist l := by
  induction l with
  | nil =>
      cases ht
  | cons a l ih =>
      obtain ⟨hfirst, hl⟩ := List.pairwise_cons.mp h
      rcases List.mem_cons.mp ht with rfl | ht'
      · rcases List.mem_cons.mp hu with rfl | hu'
        · exact absurd hlt (lt_irrefl _)
        · exact List.Sublist.cons_cons t (List.singleton_sublist.mpr hu')
      · rcases List.mem_cons.mp hu with rfl | hu'
        · exact absurd (hfirst t ht') (not_lt.mpr (le_of_lt hlt))
        · exact (ih hl ht' hu').cons a

/-- An installed compaction replaces tables. -/
theorem Installs.replaces
    {numLevels : Nat} {s s' : DbState} {i : Nat} {c : Compaction} {t : SortedTable}
    (h : Installs numLevels s s' i c t) :
    Replaces entryRank SortedTable.get s.tables s'.tables c.level c.parents c.children t where
  mem_iff := fun m y => h.ready.mem_iff h.installed m y
  parents_mem := h.ready.claim.parents_mem
  children_mem := h.ready.claim.children_mem
  inputs_above := by
    intro m y hy hin
    have hone := h.ready.inv.tables.one_level
    rcases List.mem_append.mp hin with hin | hin
    · have := hone m c.level y y hy (h.ready.claim.parents_mem y hin) rfl
      omega
    · have := hone m (c.level + 1) y y hy (h.ready.claim.children_mem y hin) rfl
      omega
  first := by
    by_cases hl : c.level = 0
    · have hsub := h.installed.parents_sublist
      rw [hl] at hsub
      exact hsub
    · have heq : s'.tables 0 = s.tables 0 := h.installed.others 0 (Ne.symm hl) (by omega)
      rw [heq]
  closed := by
    intro y hy z hz hnot
    by_cases hov : Overlaps z.minKey z.maxKey (hullMin c.parents) (hullMax c.parents)
    · obtain ⟨hl, hids⟩ := h.ready.closed.newer z hz hnot hov
      right
      refine ⟨hl, sublist_of_getId_lt h.ready.inv.tables.ascending ?_ ?_ (hids y hy)⟩
      · exact hl ▸ h.ready.claim.parents_mem y hy
      · exact hl ▸ hz
    · left
      obtain ⟨hmin, hmax⟩ := hull_covers hy
      have hapart : Apart y z := fun hyz => hov (hyz.symm.mono hmin hmax)
      exact fun k a ha => hapart.get_eq_none ha
  source := h.content.source
  newest := h.content.newest

theorem Installs.quiet
    {numLevels : Nat} {s s' : DbState} {i : Nat} {c : Compaction} {t : SortedTable}
    (h : Installs numLevels s s' i c t) :
    Quiet s s' := by
  have hframe := h.frame
  have htiers : s'.tiers = { s.tiers with levels := s'.tables } := by
    rw [hframe]
    rfl
  refine ⟨by rw [hframe], by rw [hframe], Or.inr ?_⟩
  rw [htiers]
  exact Move.replace h.replaces

theorem quiet_flusherCalls
    {s : DbState} {call : Manifest × Option ManifestPanic} {next : FlusherPc}
    (hnext : next.hasAdded = s.flusher.hasAdded) :
    Quiet s (s.flusherCalls call next) := by
  obtain ⟨manifest, outcome⟩ := call
  cases outcome with
  | none =>
      refine ⟨rfl, rfl, Or.inl ?_⟩
      rw [DbState.tiers, DbState.tiers, ← hnext]
      rfl
  | some reason =>
      exact ⟨rfl, rfl, Or.inr Move.forget⟩

/-- A step that changes neither the queue nor the tables. -/
theorem quiet_of_same_tiers
    {s s' : DbState}
    (hmemtable : s'.memtable = s.memtable)
    (hbatches : s'.batches = s.batches)
    (himm : s'.immMemtables = s.immMemtables)
    (htables : s'.tables = s.tables)
    (hadded : s'.flusher.hasAdded = s.flusher.hasAdded) :
    Quiet s s' := by
  refine ⟨hmemtable, hbatches, Or.inl ?_⟩
  rw [DbState.tiers, DbState.tiers, hmemtable, himm, hadded, htables]

/-- The new table is a copy of the immutable memtable. -/
theorem quiet_addL0Table
    {s : DbState} {logOffset : Nat} {mem : Memtable} {table : SortedTable}
    (himm : s.immMemtables = [(logOffset, mem)])
    (hentries : table.entries = mem.entries) :
    Quiet s
      { s.setLevel 0 ((s.levels 0).addL0Table table) with
        flusher := .settingSeqNumber logOffset mem table.getId } := by
  refine ⟨rfl, rfl, Or.inr ?_⟩
  have hget : table.get = mem.get := by
    funext key
    rw [SortedTable.get, Memtable.get, hentries]
  have hfrozen : s.tiers.frozen = some mem.get := by
    rw [DbState.tiers, himm]
    rfl
  have hmove : Move entryRank SortedTable.get s.tiers _ := Move.copy hfrozen hget
  convert hmove using 1
  exact congrArg (fun tables => Tiers.mk s.memtable.get
    (s.immMemtables.head?.map fun imm => imm.2.get) true tables) (s.tables_addL0Table table)

theorem quiet_doMemtableCompaction
    {s : DbState}
    (params : Params)
    (h : FlushInv s) :
    Quiet s (doMemtableCompaction params s) := by
  have hat := h.at_pc
  have hstep := flusherStep_doMemtableCompaction params s
  generalize doMemtableCompaction params s = s' at hstep
  cases hstep with
  | stay =>
      exact (Unnoticed.refl s).quiet
  | start hpc himm | reserve hpc hne | write hpc hne | setOffset hpc hlt | removePage hpc hlt
  | truncated hpc hle =>
      exact quiet_of_same_tiers rfl rfl rfl rfl (by rw [hpc]; rfl)
  | add hpc hread =>
      rw [hpc] at hat
      exact quiet_addL0Table hat.1 hat.2
  | setSeqNumber hpc | register hpc | setLogOffset hpc =>
      exact quiet_flusherCalls (by rw [hpc]; rfl)
  | pop hpc himm =>
      have hone := h.eq_singleton himm
      rw [himm] at hone
      cases hone
      refine ⟨rfl, rfl, Or.inr ?_⟩
      exact Move.drop (by rw [DbState.tiers, hpc]; rfl)
  | failEmpty hpc hempty | failOffset hpc hle | failPop hpc himm =>
      exact ⟨rfl, rfl, Or.inr Move.forget⟩

/-! ## The history -/

/-- The invariant behind every read. -/
structure VersionInv (params : Params) (s : DbState) : Prop where
  own : OwnInv params.numLevels s.shared
  flush : FlushInv s
  nextSeq : s.memtable.nextSeqNumber = s.batches.flatten.length + 1
  ordered : s.tiers.Ordered entryRank SortedTable.get
  /-- Every entry was the last write of its key at the end of a batch. -/
  genuine : ∀ p key entry, s.tiers.Holds SortedTable.get p key entry →
    ∃ m ≤ s.batches.length, lastWrite (s.batches.take m).flatten key = some entry
  /-- The last write is held somewhere, unless something newer is. -/
  newest : ∀ key entry, lastWrite s.batches.flatten key = some entry →
    ∃ p newer, s.tiers.Holds SortedTable.get p key newer ∧
      entry.getSeqNumber ≤ newer.getSeqNumber

section History

variable {params : Params} {s : DbState}

/-- The first `m` batches and the rest of the history. -/
theorem flatten_take_append
    (batches : List (List WriteOp)) (m : Nat) :
    batches.flatten = (batches.take m).flatten ++ (batches.drop m).flatten := by
  rw [← List.flatten_append, List.take_append_drop]

/-- Nothing in the store is newer than the history. -/
theorem VersionInv.seqNumber_le
    (h : VersionInv params s)
    {p : Nat} {key : Key} {entry : MemtableEntry}
    (he : s.tiers.Holds SortedTable.get p key entry) :
    entry.getSeqNumber ≤ s.batches.flatten.length := by
  obtain ⟨m, -, hlast⟩ := h.genuine p key entry he
  have hle := lastWrite_seqNumber_le hlast
  rw [flatten_take_append s.batches m, List.length_append]
  omega

theorem versionInv_new
    (params : Params) (numTasks : Nat) :
    VersionInv params (DbState.new params numTasks) := by
  have hnone : ∀ p key entry,
      ¬ (DbState.new params numTasks).tiers.Holds SortedTable.get p key entry := by
    intro p key entry h
    match p, h with
    | 0, h => cases h
    | 1, ⟨f, hf, _⟩ => cases hf
    | l + 2, ⟨x, hx, _⟩ => cases hx
  refine ⟨ownInv_new params numTasks, ⟨Nat.zero_le _, trivial⟩, rfl, ⟨?_, ?_, ?_⟩, ?_, ?_⟩
  · intro p q key a b _ ha
    exact absurd ha (hnone p key a)
  · exact List.Pairwise.nil
  · intro hcopied
    cases hcopied
  · intro p key entry he
    exact absurd he (hnone p key entry)
  · intro key entry he
    cases he

theorem VersionInv.of_quiet
    {s' : DbState}
    (h : VersionInv params s)
    (hquiet : Quiet s s')
    (hown : OwnInv params.numLevels s'.shared)
    (hflush : FlushInv s') :
    VersionInv params s' := by
  have hlive : s'.tiers.live = s.tiers.live := congrArg Memtable.get hquiet.memtable
  rcases hquiet.tiers with htiers | hmove
  · refine ⟨hown, hflush, ?_, ?_, ?_, ?_⟩
    · rw [hquiet.memtable, hquiet.batches]
      exact h.nextSeq
    · rw [htiers]
      exact h.ordered
    · rw [htiers, hquiet.batches]
      exact h.genuine
    · rw [htiers, hquiet.batches]
      exact h.newest
  · refine ⟨hown, hflush, ?_, h.ordered.move hmove, ?_, ?_⟩
    · rw [hquiet.memtable, hquiet.batches]
      exact h.nextSeq
    · intro p key entry he
      rw [hquiet.batches]
      rcases hmove.back he with ⟨q, hq⟩ | hq
      · exact h.genuine q key entry hq
      · rw [hlive] at hq
        exact h.genuine 0 key entry hq
    · intro key entry he
      rw [hquiet.batches] at he
      obtain ⟨p, newer, hp, hle⟩ := h.newest key entry he
      obtain ⟨q, newest, -, hq, hle'⟩ := h.ordered.down hmove hp
      exact ⟨q, newest, hq, le_trans hle hle'⟩

/-- A write batch is a write of the live map. -/
theorem VersionInv.write
    (h : VersionInv params s)
    (batch : List WriteOp) :
    Move entryRank SortedTable.get s.tiers
      { s.tiers with live := (s.memtable.applyAll batch).get } := by
  refine Move.write ?_ ?_
  · intro key entry he
    rcases s.memtable.get_applyAll s.batches.flatten batch key h.nextSeq with
      ⟨hsame, -⟩ | ⟨new, hnew, -, hlt⟩
    · exact Or.inl (hsame.symm.trans he)
    · right
      intro p old hold
      obtain rfl : new = entry := Option.some.inj (hnew.symm.trans he)
      have := h.seqNumber_le hold
      exact le_of_lt (lt_of_le_of_lt this hlt)
  · intro key entry he
    rcases s.memtable.get_applyAll s.batches.flatten batch key h.nextSeq with
      ⟨hsame, -⟩ | ⟨new, hnew, -, hlt⟩
    · exact ⟨entry, hsame.trans he, le_refl _⟩
    · have : entry.getSeqNumber ≤ s.batches.flatten.length :=
        h.seqNumber_le (p := 0) he
      exact ⟨new, hnew, le_of_lt (lt_of_le_of_lt this hlt)⟩

/-- The state right after a batch was applied, before a rotation. -/
def afterBatch (s : DbState) (batch : List WriteOp) : DbState :=
  { s with batches := s.batches ++ [batch], memtable := s.memtable.applyAll batch }

/-- The state after a rotation. -/
def rotate (s : DbState) : DbState :=
  { s with
    memtable := Memtable.new s.memtable.getNextSeqNumber
    immMemtables := s.immMemtables ++ [((Wal.encode s.batches.flatten).length, s.memtable)] }

/-- A write waits, applies its batch, or applies it and rotates. -/
theorem writeOpts_cases
    (params : Params) (s : DbState) (batch : List WriteOp) :
    writeOpts params s batch = s ∨ writeOpts params s batch = afterBatch s batch ∨
      (s.immMemtables = [] ∧ writeOpts params s batch = rotate (afterBatch s batch)) := by
  unfold writeOpts
  dsimp only
  split_ifs with hfull hempty
  · exact Or.inr (Or.inr ⟨List.isEmpty_iff.mp hempty, rfl⟩)
  · exact Or.inl rfl
  · exact Or.inr (Or.inl rfl)

theorem VersionInv.afterBatch
    (h : VersionInv params s)
    (batch : List WriteOp) :
    VersionInv params (afterBatch s batch) := by
  have hmove := h.write batch
  have hflatten : (s.batches ++ [batch]).flatten = s.batches.flatten ++ batch := by
    simp
  have htake : ∀ m ≤ s.batches.length, (s.batches ++ [batch]).take m = s.batches.take m :=
    fun m hm => List.take_append_of_le_length hm
  refine ⟨h.own, ⟨h.flush.short, h.flush.at_pc⟩, ?_, h.ordered.move hmove, ?_, ?_⟩
  · change (s.memtable.applyAll batch).nextSeqNumber = (s.batches ++ [batch]).flatten.length + 1
    rw [Memtable.applyAll_nextSeqNumber, h.nextSeq, hflatten, List.length_append]
    omega
  · intro p key entry he
    have hold : ∀ q, s.tiers.Holds SortedTable.get q key entry →
        ∃ m ≤ (s.batches ++ [batch]).length,
          lastWrite ((s.batches ++ [batch]).take m).flatten key = some entry := by
      intro q hq
      obtain ⟨m, hm, hlast⟩ := h.genuine q key entry hq
      refine ⟨m, by rw [List.length_append]; omega, ?_⟩
      rw [htake m hm]
      exact hlast
    rcases hmove.back he with ⟨q, hq⟩ | hq
    · exact hold q hq
    · rcases s.memtable.get_applyAll s.batches.flatten batch key h.nextSeq with
        ⟨hsame, -⟩ | ⟨new, hnew, hlast, -⟩
      · exact hold 0 (hsame.symm.trans hq)
      · obtain rfl : new = entry := Option.some.inj (hnew.symm.trans hq)
        have hall : (s.batches ++ [batch]).take (s.batches ++ [batch]).length =
            s.batches ++ [batch] := List.take_length
        refine ⟨(s.batches ++ [batch]).length, le_refl _, ?_⟩
        change lastWrite ((s.batches ++ [batch]).take _).flatten key = some new
        rw [hall, hflatten]
        exact hlast
  · intro key entry he
    change lastWrite (s.batches ++ [batch]).flatten key = some entry at he
    rw [hflatten] at he
    rcases s.memtable.get_applyAll s.batches.flatten batch key h.nextSeq with
      ⟨-, hlast⟩ | ⟨new, hnew, hlast, -⟩
    · rw [hlast] at he
      obtain ⟨p, newer, hp, hle⟩ := h.newest key entry he
      obtain ⟨q, newest, -, hq, hle'⟩ := h.ordered.down hmove hp
      exact ⟨q, newest, hq, le_trans hle hle'⟩
    · obtain rfl : new = entry := Option.some.inj (hlast.symm.trans he)
      exact ⟨0, new, hnew, le_refl _⟩

/-- A rotation freezes the live map. -/
theorem VersionInv.freeze
    (h : VersionInv params s)
    (hempty : s.immMemtables = []) :
    Move entryRank SortedTable.get s.tiers (rotate s).tiers := by
  have hfrozen : s.tiers.frozen = none := by
    rw [DbState.tiers, hempty]
    rfl
  -- the flusher has nothing in its hands while the queue is empty
  have hcopied : s.flusher.hasAdded = false := by
    have hat := h.flush.at_pc
    rw [hempty] at hat
    cases hf : s.flusher <;> simp [FlusherAt, hf] at hat <;> rfl
  have htiers : (rotate s).tiers =
      { s.tiers with live := fun _ => none, frozen := some s.tiers.live, copied := false } := by
    simp only [DbState.tiers, rotate, hempty, hcopied]
    rfl
  rw [htiers]
  exact Move.freeze hfrozen

theorem VersionInv.rotate
    (h : VersionInv params s)
    (hempty : s.immMemtables = []) :
    VersionInv params (rotate s) := by
  have hmove := h.freeze hempty
  refine ⟨h.own, ⟨?_, ?_⟩, h.nextSeq, h.ordered.move hmove, ?_, ?_⟩
  · simp [Logic.rotate, hempty]
  · have hat := h.flush.at_pc
    change FlusherAt (s.immMemtables ++ _) s.flusher
    cases hf : s.flusher <;> simp [FlusherAt, hf, hempty] at hat ⊢
  · intro p key entry he
    rcases hmove.back he with ⟨q, hq⟩ | hq
    · exact h.genuine q key entry hq
    · cases hq
  · intro key entry he
    obtain ⟨p, newer, hp, hle⟩ := h.newest key entry he
    obtain ⟨q, newest, -, hq, hle'⟩ := h.ordered.down hmove hp
    exact ⟨q, newest, hq, le_trans hle hle'⟩

theorem versionInv_writeOpts
    (h : VersionInv params s)
    (batch : List WriteOp) :
    VersionInv params (writeOpts params s batch) := by
  rcases writeOpts_cases params s batch with heq | heq | ⟨hempty, heq⟩ <;> rw [heq]
  · exact h
  · exact h.afterBatch batch
  · exact (h.afterBatch batch).rotate hempty

theorem versionInv_step
    (params : Params) (s : DbState) (e : DbEvent)
    (h : VersionInv params s) :
    VersionInv params (step params s e) := by
  have hown := ownInv_step params s e h.own
  have hstep := dbStep_step h.own e
  generalize step params s e = s' at hown hstep
  cases hstep with
  | write batch =>
      exact versionInv_writeOpts h batch
  | flusher =>
      exact h.of_quiet (quiet_doMemtableCompaction params h.flush) hown
        (flushInv_doMemtableCompaction params h.flush)
  | installs hi hpc hinst =>
      exact h.of_quiet hinst.quiet hown (h.flush.of_installs hinst)
  | unnoticed hframe =>
      exact h.of_quiet hframe.quiet hown (h.flush.of_unnoticed hframe)

theorem versionInv_run
    (params : Params) (numTasks : Nat) (events : List DbEvent) :
    VersionInv params ((DbState.new params numTasks).run params events) :=
  Runs.invariant (I := VersionInv params) (versionInv_step params)
    (versionInv_new params numTasks) events

end History

end Logic
end LsmStore
