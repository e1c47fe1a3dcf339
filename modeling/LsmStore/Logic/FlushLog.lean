import LsmStore.Logic.Versions

/-!
# The flusher and the log

The history of the database is cut in three: what has been flushed, what the
immutable memtable holds, and what the live memtable holds.  The offsets the
flusher persists are the ends of these parts: at every program counter it is
known which of them have been advanced already, and which pages of the log are
gone.

A nonempty memtable has used up sequence numbers and log space, so the checks
that the offsets only increase never fail.
-/

namespace LsmStore
namespace Logic

open Wal

namespace FlusherPc

/-- The flusher has seen that its memtable is not empty. -/
def started : FlusherPc → Bool
  | writing _ _ _ => true
  | adding _ _ _ => true
  | settingSeqNumber _ _ _ => true
  | registering _ _ => true
  | settingOffset _ => true
  | truncating _ _ _ => true
  | settingLogOffset _ => true
  | popping => true
  | _ => false

/-- The sequence number offset in the manifest is the one behind the memtable. -/
def seqNumberSet : FlusherPc → Bool
  | registering _ _ => true
  | settingOffset _ => true
  | truncating _ _ _ => true
  | settingLogOffset _ => true
  | popping => true
  | _ => false

/-- The pages below the memtable's offset are gone. -/
def truncated : FlusherPc → Bool
  | settingLogOffset _ => true
  | popping => true
  | _ => false

/-- The log offset in the manifest is the one behind the memtable. -/
def logOffsetSet : FlusherPc → Bool
  | popping => true
  | _ => false

/-- The first page of the log that is still there. -/
def firstPage (logFlushPos : Nat) : FlusherPc → Nat
  | truncating _ fpos _ => fpos
  | _ => logFlushPos / pageSize

end FlusherPc

/-- The flushed part, with or without the part of the immutable memtable. -/
def upTo (advanced : Bool) (flushed frozen : List WriteOp) : List WriteOp :=
  if advanced then flushed ++ frozen else flushed

/-- The three parts of the history, and what the offsets say about them. -/
structure LogSplit (s : DbState) (flushed frozen live : List WriteOp) : Prop where
  history : s.batches.flatten = flushed ++ frozen ++ live
  memtable : s.memtable =
    (Memtable.new ((flushed ++ frozen).length + 1)).applyAll live
  imm : (s.immMemtables = [] ∧ frozen = []) ∨
    s.immMemtables = [((encode (flushed ++ frozen)).length,
      (Memtable.new (flushed.length + 1)).applyAll frozen)]
  started : s.flusher.started = true → frozen ≠ []
  seqNumberOffset : s.manifest.seqNumberOffset =
    (upTo s.flusher.seqNumberSet flushed frozen).length + 1
  logFlushPos : s.logFlushPos = (encode (upTo s.flusher.truncated flushed frozen)).length
  logOffset : s.manifest.logOffset =
    (encode (upTo s.flusher.logOffsetSet flushed frozen)).length
  removed : ∀ page, page ∈ s.removedPages ↔ page < s.flusher.firstPage s.logFlushPos
  truncating : ∀ logOffset fpos newFilePos,
    s.flusher = .truncating logOffset fpos newFilePos →
      newFilePos = logOffset / pageSize ∧ fpos ≤ newFilePos
  panicked : ∀ reason, s.flusher = .panicked reason → reason = .memtableEmpty

section Split

variable {params : Params} {s s' : DbState} {flushed frozen live : List WriteOp}

theorem length_encode_lt
    (flushed : List WriteOp) {frozen : List WriteOp}
    (h : frozen ≠ []) :
    (encode flushed).length < (encode (flushed ++ frozen)).length := by
  obtain ⟨op, rest, rfl⟩ := List.exists_cons_of_ne_nil h
  have hpos := List.length_pos_iff.mpr (encodeEntry_ne_nil op)
  rw [encode_append, encode_cons, List.length_append, List.length_append]
  omega

theorem ne_nil_of_entries
    {n : Nat} {ops : List WriteOp}
    (h : ((Memtable.new n).applyAll ops).entries ≠ []) :
    ops ≠ [] := by
  rintro rfl
  exact h rfl

theorem logSplit_new
    (params : Params) (numTasks : Nat) :
    LogSplit (DbState.new params numTasks) [] [] [] where
  history := rfl
  memtable := rfl
  imm := Or.inl ⟨rfl, rfl⟩
  started := nofun
  seqNumberOffset := rfl
  logFlushPos := rfl
  logOffset := rfl
  removed := by simp [DbState.new, FlusherPc.firstPage]
  truncating := nofun
  panicked := nofun

section Steps

variable (h : LogSplit s flushed frozen live)

include h

/-- The flusher goes on without an offset being advanced or a page removed. -/
theorem LogSplit.moves
    (hbatches : s'.batches = s.batches)
    (hmemtable : s'.memtable = s.memtable)
    (himm : s'.immMemtables = s.immMemtables)
    (hseq : s'.manifest.seqNumberOffset = s.manifest.seqNumberOffset)
    (hlog : s'.manifest.logOffset = s.manifest.logOffset)
    (hpos : s'.logFlushPos = s.logFlushPos)
    (hremoved : s'.removedPages = s.removedPages)
    (hstarted : s'.flusher.started = true → frozen ≠ [])
    (hsame : s'.flusher.seqNumberSet = s.flusher.seqNumberSet ∧
      s'.flusher.truncated = s.flusher.truncated ∧
      s'.flusher.logOffsetSet = s.flusher.logOffsetSet ∧
      s'.flusher.firstPage s.logFlushPos = s.flusher.firstPage s.logFlushPos)
    (htrunc : ∀ logOffset fpos newFilePos, s'.flusher = .truncating logOffset fpos newFilePos →
      newFilePos = logOffset / pageSize ∧ fpos ≤ newFilePos)
    (hpanic : ∀ reason, s'.flusher = .panicked reason → reason = .memtableEmpty) :
    LogSplit s' flushed frozen live where
  history := hbatches ▸ h.history
  memtable := hmemtable ▸ h.memtable
  imm := himm ▸ h.imm
  started := hstarted
  seqNumberOffset := by rw [hseq, hsame.1, h.seqNumberOffset]
  logFlushPos := by rw [hpos, hsame.2.1, h.logFlushPos]
  logOffset := by rw [hlog, hsame.2.2.1, h.logOffset]
  removed := by rw [hremoved, hpos, hsame.2.2.2]; exact h.removed
  truncating := htrunc
  panicked := hpanic

/-- Only the queues, the offsets and the flusher matter. -/
theorem LogSplit.frame
    (hbatches : s'.batches = s.batches)
    (hmemtable : s'.memtable = s.memtable)
    (himm : s'.immMemtables = s.immMemtables)
    (hflusher : s'.flusher = s.flusher)
    (hseq : s'.manifest.seqNumberOffset = s.manifest.seqNumberOffset)
    (hlog : s'.manifest.logOffset = s.manifest.logOffset)
    (hpos : s'.logFlushPos = s.logFlushPos)
    (hremoved : s'.removedPages = s.removedPages) :
    LogSplit s' flushed frozen live :=
  h.moves hbatches hmemtable himm hseq hlog hpos hremoved (hflusher ▸ h.started)
    (by rw [hflusher]; exact ⟨rfl, rfl, rfl, rfl⟩) (hflusher ▸ h.truncating)
    (hflusher ▸ h.panicked)

theorem LogSplit.of_unnoticed
    (hframe : Unnoticed s s') :
    LogSplit s' flushed frozen live :=
  h.frame hframe.batches hframe.memtable hframe.immMemtables hframe.flusher
    hframe.seqNumberOffset hframe.logOffset hframe.logFlushPos hframe.removedPages

theorem LogSplit.of_installs
    {numLevels i : Nat} {c : Compaction} {t : SortedTable}
    (hinst : Installs numLevels s s' i c t) :
    LogSplit s' flushed frozen live := by
  have hheader := s.manifest.updateTableSet_header [(c.level + 1, t.getId)] (removeSet c)
  rw [← hinst.manifest] at hheader
  have hframe := hinst.frame
  exact h.frame (by rw [hframe]) (by rw [hframe]) (by rw [hframe]) (by rw [hframe])
    hheader.2.2.1 hheader.2.2.2 (by rw [hframe]) (by rw [hframe])

theorem LogSplit.afterBatch
    (batch : List WriteOp) :
    LogSplit (afterBatch s batch) flushed frozen (live ++ batch) :=
  { h with
    history := by
      change (s.batches ++ [batch]).flatten = _
      rw [List.flatten_append, h.history, List.flatten_singleton]
      simp
    memtable := by
      change s.memtable.applyAll batch = _
      rw [h.memtable, Memtable.applyAll_append] }

theorem LogSplit.rotate
    (hflush : FlushInv s)
    (hempty : s.immMemtables = []) :
    LogSplit (rotate s) flushed live [] := by
  obtain rfl : frozen = [] := by
    rcases h.imm with ⟨-, hfrozen⟩ | himm
    · exact hfrozen
    · rw [hempty] at himm
      cases himm
  have hhistory : s.batches.flatten = flushed ++ live := by
    simpa using h.history
  have hmemtable : s.memtable = (Memtable.new (flushed.length + 1)).applyAll live := by
    simpa using h.memtable
  -- the flusher works on nothing while the queue is empty
  have hpc : s.flusher = .idle ∨ ∃ reason, s.flusher = .panicked reason := by
    have hat := hflush.at_pc
    rw [hempty] at hat
    cases hf : s.flusher <;> simp [FlusherAt, hf] at hat ⊢
  have hupTo : ∀ advanced, upTo advanced flushed [] = flushed := by
    intro advanced
    cases advanced <;> simp [upTo]
  refine ⟨?_, ?_, Or.inr ?_, ?_, ?_, ?_, ?_, h.removed, h.truncating, h.panicked⟩
  · simpa [Logic.rotate] using hhistory
  · change Memtable.new s.memtable.nextSeqNumber = _
    rw [hmemtable, Memtable.applyAll_nextSeqNumber, List.length_append]
    congr 1
    change flushed.length + 1 + live.length = _
    omega
  · change s.immMemtables ++ [((encode s.batches.flatten).length, s.memtable)] = _
    rw [hempty, hhistory, hmemtable]
    rfl
  · intro hstarted
    rcases hpc with hf | ⟨reason, hf⟩ <;> rw [Logic.rotate, hf] at hstarted <;> cases hstarted
  · rw [Logic.rotate, h.seqNumberOffset, hupTo]
    rcases hpc with hf | ⟨reason, hf⟩ <;> rw [hf] <;> rfl
  · rw [Logic.rotate, h.logFlushPos, hupTo]
    rcases hpc with hf | ⟨reason, hf⟩ <;> rw [hf] <;> rfl
  · rw [Logic.rotate, h.logOffset, hupTo]
    rcases hpc with hf | ⟨reason, hf⟩ <;> rw [hf] <;> rfl

theorem LogSplit.imm_eq
    {logOffset : Nat} {mem : Memtable}
    (himm : s.immMemtables = [(logOffset, mem)]) :
    logOffset = (encode (flushed ++ frozen)).length ∧
      mem = (Memtable.new (flushed.length + 1)).applyAll frozen := by
  rcases h.imm with ⟨hnil, -⟩ | hone
  · rw [hnil] at himm
    cases himm
  · rw [hone] at himm
    obtain ⟨rfl, rfl⟩ := Prod.mk.inj (List.singleton_inj.mp himm)
    exact ⟨rfl, rfl⟩

/-- The checks of the flusher on the offsets succeed. -/
structure OffsetsIncrease (s : DbState) : Prop where
  seqNumber : ∀ logOffset mem tableId, s.flusher = .settingSeqNumber logOffset mem tableId →
    s.manifest.seqNumberOffset < mem.getNextSeqNumber
  flushPos : ∀ logOffset, s.flusher = .settingOffset logOffset → s.logFlushPos < logOffset
  logOffset : ∀ logOffset, s.flusher = .settingLogOffset logOffset →
    s.manifest.logOffset < logOffset

theorem LogSplit.offsetsIncrease
    (hflush : FlushInv s) :
    OffsetsIncrease s := by
  have hat := hflush.at_pc
  constructor
  · intro logOffset mem tableId hf
    rw [hf] at hat
    have hne := h.started (by rw [hf]; rfl)
    have hmem := (h.imm_eq hat).2
    have hpos := List.length_pos_iff.mpr hne
    rw [h.seqNumberOffset, hf, hmem, Memtable.getNextSeqNumber, Memtable.applyAll_nextSeqNumber]
    change flushed.length + 1 < flushed.length + 1 + frozen.length
    omega
  · intro logOffset hf
    rw [hf] at hat
    obtain ⟨mem, himm⟩ := hat
    have hoffset := (h.imm_eq himm).1
    rw [h.logFlushPos, hf, hoffset]
    exact length_encode_lt flushed (h.started (by rw [hf]; rfl))
  · intro logOffset hf
    rw [hf] at hat
    obtain ⟨mem, himm⟩ := hat
    have hoffset := (h.imm_eq himm).1
    rw [h.logOffset, hf, hoffset]
    exact length_encode_lt flushed (h.started (by rw [hf]; rfl))

theorem LogSplit.setSeqNumber
    {logOffset tableId : Nat} {mem : Memtable}
    (hflush : FlushInv s)
    (hpc : s.flusher = .settingSeqNumber logOffset mem tableId) :
    LogSplit (s.flusherCalls (s.manifest.setSeqNumberOffset mem.getNextSeqNumber)
      (.registering logOffset tableId)) flushed frozen live := by
  have hat := hflush.at_pc
  have hlt := (h.offsetsIncrease hflush).seqNumber _ _ _ hpc
  obtain ⟨hhistory, hmemtable, himm, hstarted, -, hpos, hlog, hremoved, -, -⟩ := id h
  rw [hpc] at hat hstarted hpos hlog hremoved
  simp only [Manifest.setSeqNumberOffset, if_neg (not_le.mpr hlt), DbState.flusherCalls]
  refine ⟨hhistory, hmemtable, himm, fun _ => hstarted rfl, ?_, hpos, hlog, hremoved, nofun, nofun⟩
  rw [(h.imm_eq hat).2, Memtable.getNextSeqNumber, Memtable.applyAll_nextSeqNumber]
  change flushed.length + 1 + frozen.length = (flushed ++ frozen).length + 1
  rw [List.length_append]
  omega

theorem LogSplit.register
    {logOffset tableId : Nat}
    (hpc : s.flusher = .registering logOffset tableId)
    (hnone : (s.manifest.updateTableSet [(0, tableId)] []).2 = none) :
    LogSplit (s.flusherCalls (s.manifest.updateTableSet [(0, tableId)] [])
      (.settingOffset logOffset)) flushed frozen live := by
  have hheader := s.manifest.updateTableSet_header [(0, tableId)] []
  rw [DbState.flusherCalls_of_none hnone]
  exact h.moves rfl rfl rfl hheader.2.2.1 hheader.2.2.2 rfl rfl
    (fun _ => h.started (by rw [hpc]; rfl)) (by rw [hpc]; exact ⟨rfl, rfl, rfl, rfl⟩) nofun nofun

theorem LogSplit.removePage
    {logOffset fpos newFilePos : Nat}
    (hpc : s.flusher = .truncating logOffset fpos newFilePos)
    (hlt : fpos < newFilePos) :
    LogSplit { s with
      removedPages := fpos :: s.removedPages
      flusher := .truncating logOffset (fpos + 1) newFilePos } flushed frozen live := by
  obtain ⟨hhistory, hmemtable, himm, hstarted, hseq, hpos, hlog, hremoved, htrunc, -⟩ := h
  have hnew := (htrunc logOffset fpos newFilePos hpc).1
  rw [hpc] at hstarted hseq hpos hlog hremoved
  refine ⟨hhistory, hmemtable, himm, fun _ => hstarted rfl, hseq, hpos, hlog, ?_, ?_, nofun⟩
  · intro page
    change page ∈ fpos :: s.removedPages ↔ page < fpos + 1
    rw [List.mem_cons, hremoved]
    change page = fpos ∨ page < fpos ↔ page < fpos + 1
    omega
  · rintro logOffset' fpos' newFilePos' ⟨⟩
    exact ⟨hnew, hlt⟩

theorem LogSplit.truncated
    {logOffset fpos newFilePos : Nat}
    (hflush : FlushInv s)
    (hpc : s.flusher = .truncating logOffset fpos newFilePos)
    (hle : newFilePos ≤ fpos) :
    LogSplit { s with logFlushPos := logOffset, flusher := .settingLogOffset logOffset }
      flushed frozen live := by
  have hat := hflush.at_pc
  rw [hpc] at hat
  obtain ⟨mem, hone⟩ := hat
  have hoffset := (h.imm_eq hone).1
  obtain ⟨hhistory, hmemtable, himm, hstarted, hseq, -, hlog, hremoved, htrunc, -⟩ := h
  obtain ⟨hnew, hfpos⟩ := htrunc logOffset fpos newFilePos hpc
  rw [hpc] at hstarted hseq hlog hremoved
  refine ⟨hhistory, hmemtable, himm, fun _ => hstarted rfl, hseq, hoffset, hlog, ?_, nofun, nofun⟩
  intro page
  change page ∈ s.removedPages ↔ page < logOffset / pageSize
  rw [hremoved]
  change page < fpos ↔ page < logOffset / pageSize
  omega

theorem LogSplit.setLogOffset
    {logOffset : Nat}
    (hflush : FlushInv s)
    (hpc : s.flusher = .settingLogOffset logOffset) :
    LogSplit (s.flusherCalls (s.manifest.setLogOffset logOffset) .popping)
      flushed frozen live := by
  have hat := hflush.at_pc
  have hlt := (h.offsetsIncrease hflush).logOffset _ hpc
  rw [hpc] at hat
  obtain ⟨mem, hone⟩ := hat
  have hoffset := (h.imm_eq hone).1
  obtain ⟨hhistory, hmemtable, himm, hstarted, hseq, hpos, -, hremoved, -, -⟩ := h
  rw [hpc] at hstarted hseq hpos hremoved
  simp only [Manifest.setLogOffset, if_pos hlt, DbState.flusherCalls]
  exact ⟨hhistory, hmemtable, himm, fun _ => hstarted rfl, hseq, hpos, hoffset, hremoved, nofun,
    nofun⟩

/-- The memtable leaves the queue, and its operations have been flushed. -/
theorem LogSplit.pop
    (hpc : s.flusher = .popping) :
    LogSplit { s with immMemtables := [], flusher := .idle } (flushed ++ frozen) [] live := by
  obtain ⟨hhistory, hmemtable, -, -, hseq, hpos, hlog, hremoved, -, -⟩ := h
  rw [hpc] at hseq hpos hlog hremoved
  refine ⟨?_, ?_, Or.inl ⟨rfl, rfl⟩, nofun, hseq, hpos, hlog, hremoved, nofun, nofun⟩
  · simpa using hhistory
  · simpa using hmemtable

/-- One step of the flusher.  The registration of the table must not panic. -/
theorem LogSplit.doMemtableCompaction
    (params : Params)
    (hflush : FlushInv s)
    (hreg : ∀ logOffset tableId, s.flusher = .registering logOffset tableId →
      (s.manifest.updateTableSet [(0, tableId)] []).2 = none) :
    ∃ flushed' frozen', LogSplit (doMemtableCompaction params s) flushed' frozen' live := by
  have hat := hflush.at_pc
  have hstarted := h.started
  have hstep := flusherStep_doMemtableCompaction params s
  generalize Logic.doMemtableCompaction params s = s' at hstep
  cases hstep with
  | stay =>
      exact ⟨flushed, frozen, h⟩
  | start hpc =>
      exact ⟨flushed, frozen, h.moves rfl rfl rfl rfl rfl rfl rfl nofun
        (by rw [hpc]; exact ⟨rfl, rfl, rfl, rfl⟩) nofun nofun⟩
  | reserve hpc hne =>
      rw [hpc] at hat
      have hfrozen : frozen ≠ [] :=
        ne_nil_of_entries (n := flushed.length + 1) ((h.imm_eq hat).2 ▸ hne)
      exact ⟨flushed, frozen, h.moves rfl rfl rfl rfl rfl rfl rfl (fun _ => hfrozen)
        (by rw [hpc]; exact ⟨rfl, rfl, rfl, rfl⟩) nofun nofun⟩
  | write hpc | add hpc =>
      rw [hpc] at hstarted
      exact ⟨flushed, frozen, h.moves rfl rfl rfl rfl rfl rfl rfl (fun _ => hstarted rfl)
        (by rw [hpc]; exact ⟨rfl, rfl, rfl, rfl⟩) nofun nofun⟩
  | setSeqNumber hpc =>
      exact ⟨flushed, frozen, h.setSeqNumber hflush hpc⟩
  | register hpc =>
      exact ⟨flushed, frozen, h.register hpc (hreg _ _ hpc)⟩
  | setOffset hpc hlt =>
      rw [hpc] at hstarted
      refine ⟨flushed, frozen, h.moves rfl rfl rfl rfl rfl rfl rfl (fun _ => hstarted rfl)
        (by rw [hpc]; exact ⟨rfl, rfl, rfl, rfl⟩) ?_ nofun⟩
      rintro logOffset' fpos newFilePos ⟨⟩
      exact ⟨rfl, Nat.div_le_div_right (le_of_lt hlt)⟩
  | removePage hpc hlt =>
      exact ⟨flushed, frozen, h.removePage hpc hlt⟩
  | truncated hpc hle =>
      exact ⟨flushed, frozen, h.truncated hflush hpc hle⟩
  | setLogOffset hpc =>
      exact ⟨flushed, frozen, h.setLogOffset hflush hpc⟩
  | pop hpc hcons =>
      have hone := hflush.eq_singleton hcons
      rw [hcons] at hone
      cases hone
      exact ⟨flushed ++ frozen, [], h.pop hpc⟩
  | failEmpty hpc =>
      rcases hpc with hpc | ⟨tableId, hpc⟩ <;>
        exact ⟨flushed, frozen, h.moves rfl rfl rfl rfl rfl rfl rfl nofun
          (by rw [hpc]; exact ⟨rfl, rfl, rfl, rfl⟩) nofun (by simp)⟩
  | failOffset hpc hle =>
      exact absurd hle (not_le.mpr ((h.offsetsIncrease hflush).flushPos _ hpc))
  | failPop hpc hempty =>
      rw [hpc, hempty] at hat
      obtain ⟨entry, hone⟩ := hat
      cases hone

end Steps

end Split

end Logic
end LsmStore
