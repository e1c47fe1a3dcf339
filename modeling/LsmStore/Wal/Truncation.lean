import LsmStore.Wal.Durability
import LsmStore.Wal.PageFiles

/-!
# Truncating the log

`set_offset` gives up the log below a position, and the writer removes the
page files that lie entirely below it.  It finds out which ones from two
positions, the offset up to which it has removed page files before and the new
one.  A log that was reopened starts from the last offset.

`LogHistory` follows a log over its sessions.  It adds to the state of the
current session the positions that earlier sessions acknowledged, and the page
files that were removed so far.  In every state these are the page files below
some page, each of them once, and the page files from there on exist up to
where any session has written.
-/

namespace LsmStore
namespace Wal

/-- The page file that an event removes. -/
def removes (s : LogState) : Event → List Nat
  | .writer =>
      match s.pc with
      | .removing _ fpos newFilePos =>
          if fpos < newFilePos ∧ (s.dir fpos).isSome then [fpos] else []
      | _ => []
  | _ => []

/-- A log over several sessions. -/
structure LogHistory where
  state : LogState
  /-- The positions that `store` returned in earlier sessions. -/
  earlier : List Nat
  /-- The page files that were removed, in order. -/
  removed : List Nat

namespace LogHistory

def new : LogHistory where
  state := LogState.new
  earlier := []
  removed := []

/-- The positions that `store` has returned. -/
def acknowledged (h : LogHistory) : List Nat :=
  h.earlier ++ h.state.acknowledged

def step (h : LogHistory) (event : Event) : LogHistory :=
  { h with
    state := Wal.step h.state event
    removed := h.removed ++ removes h.state event }

/-- The log is opened again, with the last offset as its start position. -/
def reopen (h : LogHistory) (origin : LogDir × WalWriter) : LogHistory where
  state := LogState.start origin h.state.status.offsetPos
  earlier := h.acknowledged
  removed := h.removed

/-- An offset is a position that was acknowledged and that the present log has got to. -/
def OffsetKnown (h : LogHistory) : Event → Prop
  | .call _ (.setOffset newOffset) =>
      newOffset ∈ h.acknowledged ∧ newOffset ≤ h.state.status.writePos
  | _ => True

instance (h : LogHistory) (event : Event) : Decidable (h.OffsetKnown event) := by
  unfold OffsetKnown
  split <;> infer_instance

/-- A log is used, and reopened when no `set_offset` is running. -/
inductive Reached : LogHistory → Prop
  | new : Reached LogHistory.new
  | step
      {h : LogHistory}
      (reached : Reached h)
      (event : Event)
      (hoffset : h.OffsetKnown event) :
      Reached (h.step event)
  | reopen
      {h : LogHistory}
      (reached : Reached h)
      (hreturned : h.state.status.flushPos = h.state.status.offsetPos)
      (memtable : Memtable) (recovered : RecoveryResult × Memtable)
      (hrecovers : Recovers h.state.dir h.state.status.offsetPos memtable (.value recovered))
      (origin : LogDir × WalWriter)
      (hopen : WalWriter.continueFrom h.state.dir recovered.1.newPosition = .value origin) :
      Reached (h.reopen origin)

theorem Reached.run
    {h : LogHistory}
    (reached : h.Reached)
    {events : List Event}
    (hoffsets : Runs.Along LogHistory.step OffsetKnown h events) :
    (Runs.run LogHistory.step h events).Reached :=
  Runs.invariant_along (I := Reached)
    (fun _ event hoffset hreached => Reached.step hreached event hoffset) reached hoffsets

end LogHistory

/-- The writer removes a page file in one place only. -/
theorem removes_eq_nil
    {s : LogState}
    (h : ∀ job fpos newFilePos, s.pc = .removing job fpos newFilePos →
      newFilePos ≤ fpos ∨ s.dir fpos = none) :
    removes s .writer = [] := by
  simp only [removes]
  cases hpc : s.pc with
  | removing job fpos newFilePos =>
      refine if_neg fun hremoves => ?_
      rcases h job fpos newFilePos hpc with hle | hnone
      · exact absurd hremoves.1 (not_lt.mpr hle)
      · rw [hnone] at hremoves
        cases hremoves.2
  | _ =>
      rfl

theorem removes_of_idle
    {s : LogState}
    (hjob : s.pc.job? = none) :
    removes s .writer = [] := by
  refine removes_eq_nil ?_
  intro job fpos newFilePos hpc
  rw [hpc] at hjob
  cases hjob

theorem removes_client
    (s : LogState) {e : Event}
    (he : e ≠ .writer) :
    removes s e = [] := by
  cases e with
  | writer =>
      exact absurd rfl he
  | _ =>
      rfl

theorem mem_nil_iff_removed
    {s s' : LogState} {i : Nat}
    (hkept : (s.dir i).isSome → (s'.dir i).isSome) :
    i ∈ ([] : List Nat) ↔ (s.dir i).isSome ∧ s'.dir i = none := by
  refine iff_of_false List.not_mem_nil ?_
  rintro ⟨hold, hnone⟩
  have hnew := hkept hold
  rw [hnone] at hnew
  cases hnew

/-- A page file disappears only where the writer removes it. -/
theorem mem_removes_iff
    {origin : LogDir × WalWriter} {s : LogState}
    (hlog : LogInv origin s)
    (event : Event) (i : Nat) :
    i ∈ removes s event ↔ (s.dir i).isSome ∧ (step s event).dir i = none := by
  by_cases hevent : event = .writer
  · rw [hevent]
    change _ ↔ _ ∧ (writerStep s).dir i = none
    have hstep := hlog.writerStep_cases
    generalize writerStep s = s' at hstep
    cases hstep with
    | @remove job fpos newFilePos content hpc hlt hcontent =>
        simp only [removes, hpc, hlt, hcontent, Option.isSome_some, and_self, if_true,
          List.mem_singleton, Function.update_apply]
        by_cases heq : i = fpos
        · simp [heq, hcontent]
        · cases s.dir i <;> simp [heq]
    | stay hjob =>
        rw [removes_of_idle hjob]
        exact mem_nil_iff_removed id
    | failRemove hpc hlt hnone =>
        rw [removes_eq_nil (by rw [hpc]; rintro _ _ _ ⟨⟩; exact Or.inr hnone)]
        exact mem_nil_iff_removed id
    | removed hpc hle =>
        rw [removes_eq_nil (by rw [hpc]; rintro _ _ _ ⟨⟩; exact Or.inl hle)]
        exact mem_nil_iff_removed id
    | write hpc =>
        rw [removes_eq_nil (by rw [hpc]; nofun)]
        exact mem_nil_iff_removed fun hold => (isSome_writeAll _ _ _ i).mpr (Or.inl hold)
    | take hpc | sync hpc | skipSync hpc | publishSync hpc | publish hpc =>
        rw [removes_eq_nil (by rw [hpc]; nofun)]
        exact mem_nil_iff_removed id
  · rw [removes_client s hevent]
    refine mem_nil_iff_removed ?_
    rw [(clientStep_step s hevent).sameWriter.dir]
    exact id

/-! ## What holds in every state -/

/-- The first page whose file has not been removed. -/
def WriterPc.cleared (flushPos : Nat) : WriterPc → Nat
  | .removing _ fpos _ => fpos
  | .publish job => (job.newOffset.map Prod.fst).getD flushPos / pageSize
  | _ => flushPos / pageSize

def LogState.cleared (s : LogState) : Nat :=
  s.pc.cleared s.status.flushPos

/-- The job starts from what was flushed, the removal is between the two offsets, and only a
call of `stop` ends the task. -/
structure LogStatus.Proper (status : LogStatus) (pc : WriterPc) : Prop where
  not_failed : ∀ e, pc ≠ .failed e
  job : ∀ job, pc.job? = some job → ∀ newOffset oldOffset,
    job.newOffset = some (newOffset, oldOffset) →
      oldOffset = status.flushPos ∧ status.flushPos ≤ newOffset
  removing : ∀ job fpos newFilePos, pc = .removing job fpos newFilePos →
    ∃ newOffset, job.newOffset = some (newOffset, status.flushPos) ∧
      newFilePos = newOffset / pageSize ∧
      status.flushPos / pageSize ≤ fpos ∧ fpos ≤ newFilePos
  stop : status.stopFlag = false →
    (∀ job, pc.job? = some job → job.stopFlag = false) ∧ pc ≠ .finished

theorem LogStatus.proper_waiting
    (status : LogStatus) :
    status.Proper .waiting :=
  ⟨nofun, nofun, nofun, fun _ => ⟨nofun, nofun⟩⟩

/-- The job goes on. -/
theorem LogStatus.Proper.of_job
    {status status' : LogStatus} {pc pc' : WriterPc} {job : Job}
    (h : status.Proper pc)
    (hflush : status'.flushPos = status.flushPos)
    (hstop : status'.stopFlag = status.stopFlag)
    (hjob : pc.job? = some job)
    (hjob' : pc'.job? = some job)
    (hremoving : ∀ job fpos newFilePos, pc' = .removing job fpos newFilePos →
      ∃ newOffset, job.newOffset = some (newOffset, status.flushPos) ∧
        newFilePos = newOffset / pageSize ∧
        status.flushPos / pageSize ≤ fpos ∧ fpos ≤ newFilePos) :
    status'.Proper pc' := by
  refine ⟨?_, ?_, hflush ▸ hremoving, ?_⟩
  · rintro e rfl
    cases hjob'
  · rw [hjob', ← hjob, hflush]
    exact h.job
  · rw [hstop, hjob', ← hjob]
    refine fun hflag => ⟨(h.stop hflag).1, ?_⟩
    rintro rfl
    cases hjob'

/-- What holds in every state of a log; `reach` is where earlier sessions have written to. -/
structure TruncInv (reach : Nat) (h : LogHistory) : Prop where
  log : ∃ origin, LogInv origin h.state
  acknowledged : ∀ p ∈ h.state.acknowledged, p ≤ h.state.status.writePos
  earlier : ∀ p ∈ h.earlier, p ≤ reach
  /-- The writer is not behind the offset. -/
  offsetPos_le : h.state.status.offsetPos ≤ h.state.writer.position
  proper : h.state.status.Proper h.state.pc
  removed : h.removed = List.range h.state.cleared
  pages : ∀ i, h.state.cleared ≤ i → i ≤ max reach h.state.writer.position / pageSize →
    (h.state.dir i).isSome
  gone : ∀ i < h.state.cleared, h.state.dir i = none
  fits : PagesFit h.state.dir
  cursor : h.state.writer.CursorBehind

section Invariant

variable {reach : Nat} {h : LogHistory}

theorem truncInv_new :
    TruncInv 0 LogHistory.new where
  log := ⟨_, logInv_start (WalWriter.new fun _ => none) 0⟩
  acknowledged := nofun
  earlier := nofun
  offsetPos_le := Nat.zero_le _
  proper := LogStatus.proper_waiting _
  removed := rfl
  pages := by
    intro i _ hi
    obtain rfl : i = 0 := Nat.le_zero.mp hi
    rfl
  gone := fun i hi => absurd hi (Nat.not_lt_zero i)
  fits := PagesFit.createFile (fun _ _ hcontent => by cases hcontent) 0
  cursor := Nat.zero_le _

section Steps

variable (hinv : TruncInv reach h)

include hinv

/-- What was removed lies between what was flushed and the offset. -/
theorem TruncInv.cleared_bounds :
    h.state.status.flushPos / pageSize ≤ h.state.cleared ∧
      h.state.cleared ≤ h.state.status.offsetPos / pageSize := by
  obtain ⟨origin, hlog⟩ := hinv.log
  have hflush : h.state.status.flushPos / pageSize ≤ h.state.status.offsetPos / pageSize :=
    Nat.div_le_div_right hlog.flushPos_le
  unfold LogState.cleared
  cases hpc : h.state.pc with
  | removing job fpos newFilePos =>
      obtain ⟨newOffset, hnew, rfl, hle, hle'⟩ := hinv.proper.removing job fpos newFilePos hpc
      have hbound := hlog.newOffset_le job (by rw [hpc]; rfl) newOffset _ hnew
      exact ⟨hle, le_trans hle' (Nat.div_le_div_right hbound)⟩
  | publish job =>
      rw [WriterPc.cleared]
      cases hnew : job.newOffset with
      | none =>
          exact ⟨le_refl _, hflush⟩
      | some offsets =>
          have hjob : h.state.pc.job? = some job := by
            rw [hpc]
            rfl
          exact ⟨Nat.div_le_div_right (hinv.proper.job job hjob offsets.1 offsets.2 hnew).2,
            Nat.div_le_div_right (hlog.newOffset_le job hjob offsets.1 offsets.2 hnew)⟩
  | _ =>
      exact ⟨le_refl _, hflush⟩

/-- A step that leaves the page files and the writer alone. -/
theorem TruncInv.of_files
    {s : LogState} {e : Event}
    (hremoves : removes h.state e = [])
    (hlog : ∃ origin, LogInv origin s)
    (hdir : s.dir = h.state.dir)
    (hwriter : s.writer = h.state.writer)
    (hack : ∀ p ∈ s.acknowledged, p ≤ s.status.writePos)
    (hoffset : s.status.offsetPos ≤ h.state.writer.position)
    (hproper : s.status.Proper s.pc)
    (hcleared : s.cleared = h.state.cleared) :
    TruncInv reach { h with state := s, removed := h.removed ++ removes h.state e } where
  log := hlog
  acknowledged := hack
  earlier := hinv.earlier
  offsetPos_le := by
    dsimp only
    rwa [hwriter]
  proper := hproper
  removed := by
    dsimp only
    rw [hremoves, List.append_nil, hinv.removed, hcleared]
  pages := by
    dsimp only
    rw [hdir, hwriter, hcleared]
    exact hinv.pages
  gone := by
    dsimp only
    rw [hdir, hcleared]
    exact hinv.gone
  fits := by
    dsimp only
    rw [hdir]
    exact hinv.fits
  cursor := by
    dsimp only
    rw [hwriter]
    exact hinv.cursor

/-- A client may queue records, get positions and move the offset. -/
theorem TruncInv.clientStep
    {s : LogState} {e : Event}
    (hevent : e ≠ .writer)
    (hstep : ClientStep h.state e s)
    (hoffset : h.OffsetKnown e) :
    TruncInv reach { h with state := s, removed := h.removed ++ removes h.state e } := by
  obtain ⟨origin, hold⟩ := hinv.log
  have hlog : ∃ origin, LogInv origin s := ⟨origin, hold.clientStep hstep⟩
  have hproper := hinv.proper
  refine hinv.of_files (removes_client _ hevent) hlog hstep.sameWriter.dir
    hstep.sameWriter.writer ?_ ?_ ?_ ?_
  · cases hstep with
    | @acknowledge client endPos hclient hle =>
        intro p hp
        rcases List.mem_append.mp hp with hbefore | hnew
        · exact hinv.acknowledged p hbefore
        · rw [List.mem_singleton.mp hnew]
          exact hle
    | _ =>
        exact hinv.acknowledged
  · cases hstep with
    | setOffset =>
        exact le_trans hoffset.2 hold.writePos_le
    | _ =>
        exact hinv.offsetPos_le
  · cases hstep with
    | stop =>
        exact ⟨hproper.not_failed, hproper.job, hproper.removing, nofun⟩
    | _ =>
        exact ⟨hproper.not_failed, hproper.job, hproper.removing, hproper.stop⟩
  · cases hstep <;> rfl

/-- The removal starts where the last one ended. -/
theorem TruncInv.afterSync
    {job : Job}
    (hjob : h.state.pc.job? = some job)
    (hstarts : h.state.cleared = h.state.status.flushPos / pageSize)
    (syncPos : Nat) :
    LogStatus.Proper { h.state.status with syncPos := syncPos } (afterSync job) ∧
      (afterSync job).cleared h.state.status.flushPos = h.state.cleared := by
  have hproper := @LogStatus.Proper.of_job _ { h.state.status with syncPos := syncPos } _ _ _
    hinv.proper rfl rfl hjob (afterSync_job job)
  unfold Wal.afterSync at hproper ⊢
  rw [hstarts]
  cases hnew : job.newOffset with
  | none =>
      simp only [hnew] at hproper ⊢
      refine ⟨hproper nofun, ?_⟩
      rw [WriterPc.cleared, hnew]
      rfl
  | some offsets =>
      obtain ⟨hold, hle⟩ := hinv.proper.job job hjob offsets.1 offsets.2 hnew
      simp only [hnew, hold] at hproper ⊢
      refine ⟨hproper ?_, rfl⟩
      rintro job' fpos newFilePos ⟨⟩
      exact ⟨offsets.1, by rw [hnew, ← hold], rfl, le_rfl, Nat.div_le_div_right hle⟩

/-- The writer creates page files above the offset only. -/
theorem TruncInv.writeBuffer
    {job : Job} {buf : List UInt8} {toWrite : List (List UInt8)}
    (hpc : h.state.pc = .writing job (buf :: toWrite)) :
    TruncInv reach { h with
      state := { h.state with
        dir := (h.state.writer.writeAll h.state.dir buf).1
        writer := (h.state.writer.writeAll h.state.dir buf).2
        pc := .writing job toWrite } } := by
  have hcleared : h.state.cleared = h.state.status.flushPos / pageSize := by
    rw [LogState.cleared, hpc]
    rfl
  have hexists := isSome_writeAll h.state.dir h.state.writer buf
  have hposition := WalWriter.writeAll_position h.state.dir h.state.writer buf
  obtain ⟨hfits, hcursor⟩ := hinv.fits.writeAll hinv.cursor buf
  have hle := hinv.offsetPos_le
  refine ⟨hinv.log.imp fun _ hl => hl.writeBuffer hpc, hinv.acknowledged, hinv.earlier, ?_,
    hinv.proper.of_job rfl rfl (by rw [hpc]; rfl) rfl nofun, ?_, ?_, ?_, hfits, hcursor⟩
  · dsimp only
    omega
  · rw [hinv.removed, hcleared]
    rfl
  · intro i hi hbelow
    dsimp only at hbelow ⊢
    rw [hexists]
    rw [hposition] at hbelow
    by_cases hnew : h.state.writer.position / pageSize < i ∧
        i ≤ (h.state.writer.position + buf.length) / pageSize
    · exact Or.inr hnew
    · refine Or.inl (hinv.pages i (hcleared ▸ hi) ?_)
      rcases le_total reach (h.state.writer.position + buf.length) with hreach | hreach
      · rw [max_eq_right hreach] at hbelow
        exact le_trans (by omega) (Nat.div_le_div_right (le_max_right reach _))
      · rw [max_eq_left hreach] at hbelow
        exact le_trans hbelow (Nat.div_le_div_right (le_max_left _ _))
  · intro i hi
    have hbelow : i < h.state.cleared := hcleared ▸ hi
    have hpage : h.state.cleared ≤ h.state.writer.position / pageSize :=
      le_trans hinv.cleared_bounds.2 (Nat.div_le_div_right hle)
    dsimp only
    rw [← Option.not_isSome_iff_eq_none, hexists, hinv.gone i hbelow]
    rintro (hsome | ⟨hlt, -⟩)
    · cases hsome
    · omega

/-- The page file that is removed is there. -/
theorem TruncInv.isSome_of_removing
    {job : Job} {fpos newFilePos : Nat}
    (hpc : h.state.pc = .removing job fpos newFilePos)
    (hlt : fpos < newFilePos) :
    (h.state.dir fpos).isSome := by
  obtain ⟨origin, hlog⟩ := hinv.log
  have hcleared : h.state.cleared = fpos := by
    rw [LogState.cleared, hpc]
    rfl
  have hle := hlog.removing_le job fpos newFilePos hpc
  have hbound : h.state.status.offsetPos ≤ max reach h.state.writer.position :=
    le_trans hinv.offsetPos_le (le_max_right _ _)
  exact hinv.pages fpos (le_of_eq hcleared) (le_trans (by omega) (Nat.div_le_div_right hbound))

theorem TruncInv.removeFile
    {job : Job} {fpos newFilePos : Nat}
    (hpc : h.state.pc = .removing job fpos newFilePos)
    (hlt : fpos < newFilePos) :
    TruncInv reach { h with
      state := { h.state with
        dir := Function.update h.state.dir fpos none
        pc := .removing job (fpos + 1) newFilePos }
      removed := h.removed ++ [fpos] } := by
  have hcleared : h.state.cleared = fpos := by
    rw [LogState.cleared, hpc]
    rfl
  obtain ⟨newOffset, hnew, hfile, hle, -⟩ := hinv.proper.removing job fpos newFilePos hpc
  refine ⟨hinv.log.imp fun _ hl => hl.removeFile hpc hlt, hinv.acknowledged, hinv.earlier,
    hinv.offsetPos_le, hinv.proper.of_job rfl rfl (by rw [hpc]; rfl) rfl ?_, ?_, ?_, ?_,
    hinv.fits.removeFile fpos, hinv.cursor⟩
  · rintro job' fpos' newFilePos' ⟨⟩
    exact ⟨newOffset, hnew, hfile, Nat.le_succ_of_le hle, hlt⟩
  · dsimp only
    rw [hinv.removed, hcleared, ← List.range_succ]
    rfl
  · intro i hi hbelow
    dsimp only
    rw [Function.update_of_ne (Nat.ne_of_gt hi)]
    exact hinv.pages i (hcleared ▸ Nat.le_of_lt hi) hbelow
  · intro i hi
    dsimp only
    rw [Function.update_apply]
    split_ifs with heq
    · rfl
    · exact hinv.gone i (hcleared ▸ lt_of_le_of_ne (Nat.le_of_lt_succ hi) heq)

/-- The writer publishes its position and, with a new offset, that it is flushed. -/
theorem TruncInv.publish
    {job : Job}
    (hpc : h.state.pc = .publish job)
    (hlog : ∃ origin, LogInv origin { h.state with
      status := { h.state.status with
        writePos := h.state.writer.position
        flushPos := (job.newOffset.map Prod.fst).getD h.state.status.flushPos }
      pc := if job.stopFlag then .finished else .waiting })
    (hle : h.state.status.writePos ≤ h.state.writer.position) :
    TruncInv reach { h with
      state := { h.state with
        status := { h.state.status with
          writePos := h.state.writer.position
          flushPos := (job.newOffset.map Prod.fst).getD h.state.status.flushPos }
        pc := if job.stopFlag then .finished else .waiting }
      removed := h.removed ++ removes h.state .writer } := by
  refine hinv.of_files (removes_eq_nil (by rw [hpc]; nofun)) hlog rfl rfl
    (fun p hp => le_trans (hinv.acknowledged p hp) hle) hinv.offsetPos_le ?_ ?_
  · cases hflag : job.stopFlag with
    | false =>
        exact LogStatus.proper_waiting _
    | true =>
        refine ⟨nofun, nofun, nofun, fun hstop => ?_⟩
        have hnot := (hinv.proper.stop hstop).1 job (by rw [hpc]; rfl)
        rw [hflag] at hnot
        cases hnot
  · rw [LogState.cleared, LogState.cleared, hpc]
    cases job.stopFlag <;> rfl

/-- **One step of the writer.** -/
theorem TruncInv.writerStep
    {s : LogState}
    (hstep : WriterStep h.state s) :
    TruncInv reach { h with state := s, removed := h.removed ++ removes h.state .writer } := by
  have hlog : ∃ origin, LogInv origin s := hinv.log.imp fun _ hl => hl.writerStep hstep
  have hack := hinv.acknowledged
  have hoffset := hinv.offsetPos_le
  cases hstep with
  | stay hjob =>
      rw [removes_of_idle hjob, List.append_nil]
      exact hinv
  | take hpc =>
      refine hinv.of_files (by simp [removes, hpc]) hlog rfl rfl hack hoffset
        ⟨by rintro _ ⟨⟩, ?_, by rintro _ _ _ ⟨⟩, ?_⟩
        (by rw [LogState.cleared, LogState.cleared, hpc]; rfl)
      · rintro job ⟨⟩ newOffset oldOffset hnew
        simp only [LogStatus.job, LogStatus.newOffset, Option.ite_none_right_eq_some] at hnew
        obtain ⟨hlt, ⟨⟩⟩ := hnew
        exact ⟨rfl, le_of_lt hlt⟩
      · refine fun hstop => ⟨?_, by rintro ⟨⟩⟩
        rintro job ⟨⟩
        exact hstop
  | write hpc =>
      have hnone : removes h.state .writer = [] := by simp [removes, hpc]
      rw [hnone, List.append_nil]
      exact hinv.writeBuffer hpc
  | sync hpc =>
      exact hinv.of_files (by simp [removes, hpc]) hlog rfl rfl hack hoffset
        (hinv.proper.of_job rfl rfl (by rw [hpc]; rfl) rfl (by rintro _ _ _ ⟨⟩))
        (by rw [LogState.cleared, LogState.cleared, hpc]; rfl)
  | skipSync hpc =>
      obtain ⟨hproper, hcleared⟩ := hinv.afterSync (by rw [hpc]; rfl)
        (by rw [LogState.cleared, hpc]; rfl) h.state.status.syncPos
      exact hinv.of_files (by simp [removes, hpc]) hlog rfl rfl hack hoffset
        hproper hcleared
  | publishSync hpc =>
      obtain ⟨hproper, hcleared⟩ := hinv.afterSync (by rw [hpc]; rfl)
        (by rw [LogState.cleared, hpc]; rfl) h.state.writer.position
      exact hinv.of_files (by simp [removes, hpc]) hlog rfl rfl hack hoffset
        hproper hcleared
  | @remove job fpos newFilePos content hpc hlt hcontent =>
      have hone : removes h.state .writer = [fpos] := by
        simp [removes, hpc, hlt, hcontent]
      rw [hone]
      exact hinv.removeFile hpc hlt
  | failRemove hpc hlt hnone =>
      have hsome := hinv.isSome_of_removing hpc hlt
      rw [hnone] at hsome
      cases hsome
  | removed hpc hle =>
      obtain ⟨newOffset, hnew, hfile, -, hle'⟩ := hinv.proper.removing _ _ _ hpc
      refine hinv.of_files (by simp [removes, hpc, not_lt.mpr hle]) hlog rfl rfl hack hoffset
        (hinv.proper.of_job rfl rfl (by rw [hpc]; rfl) rfl (by rintro _ _ _ ⟨⟩)) ?_
      rw [LogState.cleared, LogState.cleared, hpc, WriterPc.cleared, WriterPc.cleared, hnew]
      exact hfile.symm.trans (le_antisymm hle hle')
  | publish hpc hle =>
      exact hinv.publish hpc hlog hle

theorem TruncInv.step
    (event : Event)
    (hoffset : h.OffsetKnown event) :
    TruncInv reach (h.step event) := by
  by_cases hevent : event = .writer
  · obtain ⟨origin, hlog⟩ := hinv.log
    rw [hevent]
    exact hinv.writerStep hlog.writerStep_cases
  · exact hinv.clientStep hevent (clientStep_step h.state hevent) hoffset

/-- **Reopening the log** once every call of `set_offset` has returned. -/
theorem TruncInv.reopen
    (hreturned : h.state.status.flushPos = h.state.status.offsetPos)
    {memtable : Memtable} {recovered : RecoveryResult × Memtable}
    (hrecovers : Recovers h.state.dir h.state.status.offsetPos memtable (.value recovered))
    {origin : LogDir × WalWriter}
    (hopen : WalWriter.continueFrom h.state.dir recovered.1.newPosition = .value origin) :
    TruncInv (max reach h.state.writer.position) (h.reopen origin) := by
  obtain ⟨start, hlog⟩ := hinv.log
  have hpassed := passed_of_recovers hinv.fits hrecovers
  obtain ⟨hposition, hcursor, hfits, hexists⟩ := continueFrom_pages hopen
  have hcleared : h.state.cleared = h.state.status.offsetPos / pageSize := by
    have hbounds := hinv.cleared_bounds
    rw [hreturned] at hbounds
    omega
  have hlate : ∀ p ∈ h.acknowledged, p ≤ max reach h.state.writer.position := by
    intro p hp
    rcases List.mem_append.mp hp with hearlier | hcurrent
    · exact le_trans (hinv.earlier p hearlier) (le_max_left _ _)
    · exact le_trans (le_trans (hinv.acknowledged p hcurrent) hlog.writePos_le)
        (le_max_right _ _)
  refine ⟨⟨origin, logInv_start origin _⟩, nofun, hlate, hposition ▸ hpassed.start_le,
    LogStatus.proper_waiting _, ?_, ?_, ?_, hfits hinv.fits, hcursor⟩
  · exact hinv.removed.trans (congrArg List.range hcleared)
  · intro i hi hle
    change h.state.status.offsetPos / pageSize ≤ i at hi
    change i ≤ max (max reach h.state.writer.position) origin.2.position / pageSize at hle
    change (origin.1 i).isSome
    rw [hexists]
    rcases le_total (max reach h.state.writer.position) origin.2.position with hmax | hmax
    · rw [max_eq_right hmax, hposition] at hle
      rcases Nat.lt_or_ge i (recovered.1.newPosition / pageSize) with hlt | hge
      · exact Or.inl (hpassed.pages i hi hlt)
      · exact Or.inr (le_antisymm hle hge)
    · rw [max_eq_left hmax] at hle
      exact Or.inl (hinv.pages i (hcleared ▸ hi) hle)
  · intro i hi
    change i < h.state.status.offsetPos / pageSize at hi
    change origin.1 i = none
    have hpage : h.state.status.offsetPos / pageSize ≤ recovered.1.newPosition / pageSize :=
      Nat.div_le_div_right hpassed.start_le
    rw [← Option.not_isSome_iff_eq_none, hexists, hinv.gone i (hcleared ▸ hi)]
    rintro (hsome | heq)
    · cases hsome
    · omega

end Steps

/-- **Every state of a log over its sessions** satisfies the invariant. -/
theorem truncInv_of_reached
    (hreached : h.Reached) :
    ∃ reach, TruncInv reach h := by
  induction hreached with
  | new =>
      exact ⟨0, truncInv_new⟩
  | step reached event hoffset ih =>
      obtain ⟨reach, hinv⟩ := ih
      exact ⟨reach, hinv.step event hoffset⟩
  | reopen reached hreturned memtable recovered hrecovers origin hopen ih =>
      obtain ⟨reach, hinv⟩ := ih
      exact ⟨_, hinv.reopen hreturned hrecovers hopen⟩

end Invariant

/-! ## The writer gets there -/

/-- The page files a job removes. -/
def Job.removals (job : Job) : Nat :=
  match job.newOffset with
  | some (newOffset, oldOffset) => newOffset / pageSize - oldOffset / pageSize
  | none => 0

/-- A bound for the steps the writer has before it in its job. -/
def WriterPc.work : WriterPc → Nat
  | .writing job toWrite => toWrite.length + job.removals + 4
  | .publishSync job => job.removals + 3
  | .removing _ fpos newFilePos => newFilePos - fpos + 2
  | .publish _ => 1
  | _ => 0

theorem afterSync_work
    (job : Job) :
    (afterSync job).work ≤ job.removals + 2 := by
  unfold afterSync Job.removals
  cases job.newOffset with
  | none =>
      exact Nat.le_succ 1
  | some offsets =>
      exact le_refl _

/-- The writer goes on with its job until it publishes. -/
theorem WriterStep.advances
    {s s' : LogState} {job : Job}
    (hstep : WriterStep s s')
    (hjob : s.pc.job? = some job)
    (hfailed : ∀ e, s'.pc ≠ .failed e) :
    s.pc = .publish job ∨
      s'.pc.job? = some job ∧ s'.pc.work < s.pc.work ∧
        s'.status.flushPos = s.status.flushPos ∧ s'.status.offsetPos = s.status.offsetPos ∧
        s'.status.stopFlag = s.status.stopFlag := by
  cases hstep with
  | stay hnone =>
      rw [hnone] at hjob
      cases hjob
  | take hpc =>
      rw [hpc] at hjob
      cases hjob
  | failRemove =>
      exact absurd rfl (hfailed _)
  | publish hpc =>
      rw [hpc] at hjob ⊢
      cases hjob
      exact Or.inl rfl
  | skipSync hpc | publishSync hpc =>
      rw [hpc] at hjob ⊢
      cases hjob
      refine Or.inr ⟨afterSync_job _, lt_of_le_of_lt (afterSync_work _) ?_, rfl, rfl, rfl⟩
      simp [WriterPc.work]
  | write hpc | sync hpc | remove hpc | removed hpc =>
      rw [hpc] at hjob ⊢
      cases hjob
      refine Or.inr ⟨rfl, ?_, rfl, rfl, rfl⟩
      simp only [WriterPc.work, List.length_cons, List.length_nil]
      omega

section Progress

variable {reach : Nat} {h : LogHistory} {job : Job}

/-- The writer alone gets to such a state. -/
def LogHistory.Eventually (Q : LogHistory → Prop) (h : LogHistory) : Prop :=
  ∃ n, Q (Runs.run LogHistory.step h (List.replicate n .writer))

theorem LogHistory.Eventually.of_step
    {Q : LogHistory → Prop}
    (hstep : (h.step .writer).Eventually Q) :
    h.Eventually Q := by
  obtain ⟨n, hn⟩ := hstep
  exact ⟨n + 1, hn⟩

/-- The job is done, and nothing else has happened to the offsets. -/
structure LogHistory.Done (h : LogHistory) (job : Job) (h' : LogHistory) : Prop where
  inv : ∃ reach, TruncInv reach h'
  pc : h'.state.pc = .waiting
  flushPos : h'.state.status.flushPos =
    (job.newOffset.map Prod.fst).getD h.state.status.flushPos
  offsetPos : h'.state.status.offsetPos = h.state.status.offsetPos
  stopFlag : h'.state.status.stopFlag = h.state.status.stopFlag

/-- The last step of a job. -/
theorem TruncInv.done_of_publish
    (hinv : TruncInv reach h)
    (hstop : job.stopFlag = false)
    (hpc : h.state.pc = .publish job) :
    h.Eventually (h.Done job) := by
  obtain ⟨origin, hlog⟩ := hinv.log
  have hstep : (h.step .writer).state = publishWrites h.state job := by
    simp only [LogHistory.step, Wal.step, Wal.writerStep, hpc]
  refine LogHistory.Eventually.of_step ⟨0, ⟨reach, hinv.step .writer trivial⟩, ?_, ?_, ?_, ?_⟩
  all_goals
    simp only [List.replicate_zero, Runs.run_nil]
    rw [hstep, publishWrites, if_pos hlog.writePos_le]
  · simp [hstop]
  · cases job.newOffset <;> rfl

/-- Whatever the job is at, the writer alone finishes it. -/
theorem TruncInv.done_of_job
    (hinv : TruncInv reach h)
    (hstop : job.stopFlag = false)
    (hjob : h.state.pc.job? = some job) :
    h.Eventually (h.Done job) := by
  induction hwork : h.state.pc.work using Nat.strong_induction_on generalizing h with
  | _ work ih =>
      obtain ⟨origin, hlog⟩ := hinv.log
      have hnext := hinv.step .writer trivial
      rcases hlog.writerStep_cases.advances hjob hnext.proper.not_failed with
        hpc | ⟨hjob', hlt, hflush, hoffset, hflag⟩
      · exact hinv.done_of_publish hstop hpc
      · obtain ⟨n, hn⟩ := ih _ (hwork ▸ hlt) hnext hjob' rfl
        exact LogHistory.Eventually.of_step ⟨n, hn.inv, hn.pc, hflush ▸ hn.flushPos,
          hn.offsetPos.trans hoffset, hn.stopFlag.trans hflag⟩

/-- A writer that waits takes the offset and removes what lies below it. -/
theorem TruncInv.flushed_of_waiting
    (hinv : TruncInv reach h)
    (hpc : h.state.pc = .waiting)
    (hstop : h.state.status.stopFlag = false) :
    h.Eventually fun h' => h'.state.status.flushPos = h.state.status.offsetPos ∧
      h'.state.status.offsetPos = h.state.status.offsetPos := by
  obtain ⟨origin, hlog⟩ := hinv.log
  by_cases hflushed : h.state.status.flushPos = h.state.status.offsetPos
  · exact ⟨0, hflushed, rfl⟩
  · have hnew : h.state.status.newOffset =
        some (h.state.status.offsetPos, h.state.status.flushPos) :=
      if_pos (lt_of_le_of_ne hlog.flushPos_le hflushed)
    rcases hlog.takeWork_eq hpc with ⟨-, -, hnone, -⟩ | htake
    · rw [hnew] at hnone
      cases hnone
    · have hstep : (h.step .writer).state = takeWork h.state := by
        simp only [LogHistory.step, Wal.step, Wal.writerStep, hpc]
      have hdone := @TruncInv.done_of_job _ _ h.state.status.job (hinv.step .writer trivial) hstop
        (by rw [hstep, htake]; rfl)
      obtain ⟨n, -, -, hflush, hoffset, -⟩ := hdone
      refine LogHistory.Eventually.of_step ⟨n, ?_, ?_⟩
      · rw [hflush, LogStatus.job, hnew]
        rfl
      · rw [hoffset, hstep, htake]

/-- **`set_offset` returns**, unless the log is stopped. -/
theorem TruncInv.flushed
    (hinv : TruncInv reach h)
    (hstop : h.state.status.stopFlag = false) :
    h.Eventually fun h' => h'.state.status.flushPos = h.state.status.offsetPos ∧
      h'.state.status.offsetPos = h.state.status.offsetPos := by
  obtain ⟨hjob, hfinished⟩ := hinv.proper.stop hstop
  obtain ⟨origin, hlog⟩ := hinv.log
  cases hcurrent : h.state.pc.job? with
  | none =>
      have hwaiting : h.state.pc = .waiting := by
        cases hpc : h.state.pc with
        | waiting =>
            rfl
        | finished =>
            exact absurd hpc hfinished
        | failed e =>
            exact absurd hpc (hinv.proper.not_failed e)
        | panicked p =>
            exact absurd hpc (hlog.no_panic p)
        | _ =>
            rw [hpc] at hcurrent
            cases hcurrent
      exact hinv.flushed_of_waiting hwaiting hstop
  | some job =>
      obtain ⟨n, ⟨reach', hinv'⟩, hpc, -, hoffset, hstop'⟩ :=
        hinv.done_of_job (hjob job hcurrent) hcurrent
      obtain ⟨m, hflush, hoffset'⟩ := hinv'.flushed_of_waiting hpc (hstop'.trans hstop)
      refine ⟨n + m, ?_⟩
      rw [List.replicate_add, Runs.run_append]
      exact ⟨hflush.trans hoffset, hoffset'.trans hoffset⟩

end Progress

/-! ## What was removed and what is left -/

/-- The log after a truncation. -/
structure LogHistory.Truncated (h : LogHistory) : Prop where
  /-- No removal has failed. -/
  not_failed : ∀ e, h.state.pc ≠ .failed e
  /-- The list of the removed page files is that of the files that have disappeared. -/
  removed_iff : ∀ event i, i ∈ (h.step event).removed ↔
    i ∈ h.removed ∨ (h.state.dir i).isSome ∧ (h.step event).state.dir i = none
  once : h.removed.Nodup
  below : ∀ i ∈ h.removed, (i + 1) * pageSize ≤ h.state.status.offsetPos
  /-- The last call of `set_offset` can return. -/
  all_below : h.state.status.offsetPos ≤ h.state.status.flushPos →
    ∀ i, (i + 1) * pageSize ≤ h.state.status.offsetPos → i ∈ h.removed
  gone : ∀ i ∈ h.removed, h.state.dir i = none
  offset_page : (h.state.dir (h.state.status.offsetPos / pageSize)).isSome
  /-- Every page file with a byte of the log at the offset or above it. -/
  left : ∀ p, h.state.status.offsetPos ≤ p →
    (p < h.state.writer.position ∨ ∃ q ∈ h.acknowledged, p ≤ q) →
      (h.state.dir (p / pageSize)).isSome
  /-- The last call of `set_offset` gets to return. -/
  returns : h.state.status.stopFlag = false →
    h.Eventually fun h' => h'.state.status.flushPos = h.state.status.offsetPos ∧
      h'.state.status.offsetPos = h.state.status.offsetPos

/-- **Truncation keeps what recovery needs.**  Over any number of sessions, the page files that
lie entirely below the last offset are removed, each of them once, and stay away; the page file
of the offset and those above it are left. -/
theorem truncation_exact
    {h : LogHistory}
    (hreached : h.Reached) :
    h.Truncated := by
  obtain ⟨reach, hinv⟩ := truncInv_of_reached hreached
  obtain ⟨origin, hlog⟩ := hinv.log
  obtain ⟨hflush, hoffset⟩ := hinv.cleared_bounds
  have hmem : ∀ i, i ∈ h.removed ↔ i < h.state.cleared := by
    intro i
    rw [hinv.removed, List.mem_range]
  have hbelow : ∀ i offset, (i + 1) * pageSize ≤ offset ↔ i < offset / pageSize := by
    intro i offset
    rw [← Nat.le_div_iff_mul_le pageSize_pos]
    exact Iff.rfl
  refine ⟨hinv.proper.not_failed, ?_, ?_, ?_, ?_, ?_, ?_, ?_, hinv.flushed⟩
  · intro event i
    rw [LogHistory.step, List.mem_append, mem_removes_iff hlog]
  · rw [hinv.removed]
    exact List.nodup_range
  · intro i hi
    exact (hbelow i _).mpr (lt_of_lt_of_le ((hmem i).mp hi) hoffset)
  · intro hreturned i hi
    refine (hmem i).mpr (lt_of_lt_of_le ((hbelow i _).mp hi) ?_)
    exact le_trans (Nat.div_le_div_right hreturned) hflush
  · intro i hi
    exact hinv.gone i ((hmem i).mp hi)
  · exact hinv.pages _ hoffset
      (Nat.div_le_div_right (le_trans hinv.offsetPos_le (le_max_right _ _)))
  · intro p hp hwritten
    refine hinv.pages _ (le_trans hoffset (Nat.div_le_div_right hp)) (Nat.div_le_div_right ?_)
    rcases hwritten with hlt | ⟨q, hq, hle⟩
    · exact le_trans (le_of_lt hlt) (le_max_right _ _)
    · rcases List.mem_append.mp hq with hearlier | hcurrent
      · exact le_trans (le_trans hle (hinv.earlier q hearlier)) (le_max_left _ _)
      · have hlate := le_trans (hinv.acknowledged q hcurrent) hlog.writePos_le
        exact le_trans (le_trans hle hlate) (le_max_right _ _)

/-- A record longer than a page is stored, and the log is given up below its end. -/
def storeAndTruncate : List Event :=
  storeOne longPut ++ [.call 0 (.setOffset 4115), .writer, .writer, .writer, .writer, .writer,
    .resume 0]

/-- The log that is left, with the page file the offset lies in. -/
def truncatedOnce : LogHistory :=
  Runs.run LogHistory.step LogHistory.new storeAndTruncate

/-- The writer that continues it. -/
def continuedWriter : WalWriter where
  logFile := { page := 1, cursor := 0 }
  position := 4115

/-- The log is reopened and truncated once more. -/
def truncatedTwice : LogHistory :=
  Runs.run LogHistory.step (truncatedOnce.reopen (truncatedOnce.state.dir, continuedWriter))
    (storeOne longPut ++ [.call 0 (.setOffset 8230), .writer, .writer, .writer, .writer, .writer,
      .resume 0])

theorem truncation_exact_two_sessions :
    truncatedTwice.Reached ∧ truncatedTwice.removed = [0, 1] ∧
      truncatedTwice.state.status.flushPos = 8230 ∧ truncatedTwice.Truncated := by
  have hfirst : truncatedOnce.Reached :=
    LogHistory.Reached.run LogHistory.Reached.new (by decide +kernel)
  have hopen : WalWriter.continueFrom truncatedOnce.state.dir 4115 =
      .value (truncatedOnce.state.dir, continuedWriter) := by
    obtain ⟨content, hcontent⟩ : ∃ content, truncatedOnce.state.dir 1 = some content :=
      Option.isSome_iff_exists.mp (by decide +kernel)
    have hpage : (4115 : Nat) / pageSize = 1 := rfl
    rw [WalWriter.continueFrom, if_neg (by decide), openFile, hpage, hcontent]
    rfl
  have hreopened : (truncatedOnce.reopen (truncatedOnce.state.dir, continuedWriter)).Reached :=
    LogHistory.Reached.reopen hfirst (by decide +kernel) (Memtable.new 1)
      ({ newPosition := 4115, entriesRecovered := 0 }, Memtable.new 1)
      (recovers_of_recover 2 (by decide +kernel) (by simp)) _ hopen
  have hsecond : truncatedTwice.Reached := hreopened.run (by decide +kernel)
  exact ⟨hsecond, by decide +kernel, by decide +kernel, truncation_exact hsecond⟩

end Wal
end LsmStore
