import LsmStore.Wal.System

/-!
# The invariants documented on `LogStatus`

The source documents `sync_pos <= write_pos <= queue_pos` and
`flush_pos <= offset_pos`, and asserts parts of them in `sync` and in
`update_log`.  All of it holds but `sync_pos <= write_pos`.

`update_log` publishes `sync_pos` in one section and `write_pos` in a later
one.  If it takes buffers and a sync request at once, then between the two
sections `sync_pos` is ahead, and a client that calls `sync` there trips the
assertion.  As long as it never takes both at once, everything documented
holds.
-/

namespace LsmStore
namespace Wal

/-- The documented invariants. -/
def LogStatus.Ordered (status : LogStatus) : Prop :=
  status.syncPos ≤ status.writePos ∧ status.writePos ≤ status.queuePos ∧
    status.flushPos ≤ status.offsetPos

instance (status : LogStatus) : Decidable status.Ordered :=
  inferInstanceAs (Decidable (_ ∧ _))

/-- The writer does not take buffers and a sync request at once. -/
def Calm (s : LogState) (event : Event) : Prop :=
  event = .writer → s.pc = .waiting → s.status.syncFlag = true → s.status.queue = []

instance (s : LogState) (event : Event) : Decidable (Calm s event) :=
  inferInstanceAs (Decidable (_ → _))

/-- In every state, what was synced has been written. -/
structure SyncInv (origin : LogDir × WalWriter) (s : LogState) : Prop where
  log : LogInv origin s
  syncPos_le : s.status.syncPos ≤ s.writer.position

theorem SyncInv.step
    {origin : LogDir × WalWriter} {s : LogState}
    (h : SyncInv origin s)
    (event : Event) :
    SyncInv origin (step s event) := by
  refine ⟨h.log.step event, ?_⟩
  have hle := h.syncPos_le
  by_cases hevent : event = .writer
  · rw [hevent]
    change (writerStep s).status.syncPos ≤ (writerStep s).writer.position
    have hstep := h.log.writerStep_cases
    generalize writerStep s = s' at hstep
    cases hstep with
    | write =>
        simp only [WalWriter.writeAll_position]
        omega
    | publishSync =>
        exact le_refl _
    | _ =>
        exact hle
  · have hsame := (clientStep_step s hevent).sameWriter
    rw [hsame.syncPos, hsame.writer]
    exact hle

theorem syncInv_run
    (origin : LogDir × WalWriter) (startPosition : Nat) (events : List Event) :
    SyncInv origin ((LogState.start origin startPosition).run events) :=
  Runs.invariant (fun _ e h => h.step e) ⟨logInv_start origin startPosition, le_refl _⟩ events

/-- What holds in every state as long as the writer stays calm. -/
structure CalmInv (origin : LogDir × WalWriter) (s : LogState) : Prop where
  log : LogInv origin s
  syncPos_le : s.status.syncPos ≤ s.status.writePos
  /-- A job that syncs has nothing to write. -/
  sync_job : ∀ job, s.pc.job? = some job → job.syncFlag = true →
    s.pc.pending = [] ∧ s.writer.position = s.status.writePos
  publishing : ∀ job, s.pc = .publishSync job → job.syncFlag = true
  clients : ∀ c, s.clients c ≠ .panicked .syncNotBehind

theorem CalmInv.clientStep
    {origin : LogDir × WalWriter} {s s' : LogState} {e : Event}
    (h : CalmInv origin s)
    (hstep : ClientStep s e s') :
    CalmInv origin s' := by
  have hsame := hstep.sameWriter
  refine ⟨h.log.clientStep hstep, ?_, ?_, ?_, ?_⟩
  · rw [hsame.syncPos, hsame.writePos]
    exact h.syncPos_le
  · rw [hsame.pc, hsame.writer, hsame.writePos]
    exact h.sync_job
  · rw [hsame.pc]
    exact h.publishing
  · intro c hc
    rcases hstep.reached c with hkept | hreached
    · exact h.clients c (hkept ▸ hc)
    · rw [hc] at hreached
      exact absurd (hreached rfl) (not_lt.mpr h.syncPos_le)

/-- A step of the writer that keeps `write_pos` and does not move the position. -/
theorem CalmInv.of_pc
    {origin : LogDir × WalWriter} {s s' : LogState}
    (h : CalmInv origin s)
    (hlog : LogInv origin s')
    (hclients : s'.clients = s.clients)
    (hwriter : s'.writer = s.writer)
    (hwritePos : s'.status.writePos = s.status.writePos)
    (hsyncPos : s'.status.syncPos = s.status.syncPos ∨
      s'.status.syncPos = s.status.writePos)
    (hjob : ∀ job, s'.pc.job? = some job → s.pc.job? = some job)
    (hpending : s'.pc.pending = s.pc.pending)
    (hpublishing : ∀ job, s'.pc = .publishSync job → job.syncFlag = true) :
    CalmInv origin s' where
  log := hlog
  syncPos_le := by
    have hle := h.syncPos_le
    rw [hwritePos]
    omega
  sync_job := by
    intro job hj hflag
    rw [hwriter, hwritePos, hpending]
    exact h.sync_job job (hjob job hj) hflag
  publishing := hpublishing
  clients := by
    rw [hclients]
    exact h.clients

theorem afterSync_ne_publishSync
    (job job' : Job) :
    afterSync job ≠ .publishSync job' := by
  unfold afterSync
  split <;> nofun

theorem CalmInv.writerStep
    {origin : LogDir × WalWriter} {s s' : LogState}
    (h : CalmInv origin s)
    (hcalm : Calm s .writer)
    (hstep : WriterStep s s') :
    CalmInv origin s' := by
  have hlog := h.log.writerStep hstep
  cases hstep with
  | stay =>
      exact h
  | take hpc hposition =>
      refine ⟨hlog, h.syncPos_le, ?_, nofun, h.clients⟩
      rintro job ⟨⟩ hflag
      exact ⟨hcalm rfl hpc hflag, hposition.symm⟩
  | write hpc =>
      -- a job that syncs has nothing to write
      refine ⟨hlog, h.syncPos_le, ?_, nofun, h.clients⟩
      rintro job ⟨⟩ hflag
      have hpending := (h.sync_job _ (by rw [hpc]; rfl) hflag).1
      rw [hpc] at hpending
      cases hpending
  | sync hpc hsync =>
      refine h.of_pc hlog rfl rfl rfl (Or.inl rfl) ?_ (by rw [hpc]; rfl) ?_
      · rw [hpc]
        exact fun _ hj => hj
      · rintro job ⟨⟩
        exact hsync
  | skipSync hpc =>
      refine h.of_pc hlog rfl rfl rfl (Or.inl rfl) ?_ ?_ ?_
      · rw [hpc, afterSync_job]
        exact fun _ hj => hj
      · rw [hpc, afterSync_pending]
        rfl
      · exact fun job hj => absurd hj (afterSync_ne_publishSync _ job)
  | publishSync hpc =>
      have hsync := h.sync_job _ (by rw [hpc]; rfl) (h.publishing _ hpc)
      refine h.of_pc hlog rfl rfl rfl (Or.inr hsync.2) ?_ ?_ ?_
      · rw [hpc, afterSync_job]
        exact fun _ hj => hj
      · rw [hpc, afterSync_pending]
        rfl
      · exact fun job hj => absurd hj (afterSync_ne_publishSync _ job)
  | remove hpc | removed hpc =>
      refine h.of_pc hlog rfl rfl rfl (Or.inl rfl) ?_ (by rw [hpc]; rfl) nofun
      rw [hpc]
      exact fun _ hj => hj
  | failRemove hpc =>
      exact h.of_pc hlog rfl rfl rfl (Or.inl rfl) nofun (by rw [hpc]; rfl) nofun
  | @publish job hpc hle =>
      refine ⟨hlog, le_trans h.syncPos_le hle, ?_, ?_, h.clients⟩ <;> cases job.stopFlag <;> nofun

theorem CalmInv.step
    {origin : LogDir × WalWriter} {s : LogState}
    (h : CalmInv origin s)
    (event : Event)
    (hcalm : Calm s event) :
    CalmInv origin (step s event) := by
  by_cases hevent : event = .writer
  · rw [hevent] at hcalm ⊢
    exact h.writerStep hcalm h.log.writerStep_cases
  · exact h.clientStep (clientStep_step s hevent)

/-- The writer writes the buffers it has taken; nothing is published meanwhile. -/
theorem run_writing
    (bufs : List (List UInt8))
    {s : LogState} {job : Job}
    (hpc : s.pc = .writing job bufs) :
    (s.run (List.replicate bufs.length .writer)).pc = .writing job [] ∧
    (s.run (List.replicate bufs.length .writer)).writer.position =
      s.writer.position + bufs.flatten.length ∧
    (s.run (List.replicate bufs.length .writer)).status = s.status ∧
    (s.run (List.replicate bufs.length .writer)).clients = s.clients := by
  induction bufs generalizing s with
  | nil =>
      exact ⟨hpc, rfl, rfl, rfl⟩
  | cons buf bufs ih =>
      have hstep : (Wal.step s .writer).pc = .writing job bufs := by
        simp only [Wal.step, Wal.writerStep, hpc]
      have hposition : (Wal.step s .writer).writer.position =
          s.writer.position + buf.length := by
        simp only [Wal.step, Wal.writerStep, hpc, WalWriter.writeAll_position]
      have hstatus : (Wal.step s .writer).status = s.status ∧
          (Wal.step s .writer).clients = s.clients := by
        simp only [Wal.step, Wal.writerStep, hpc, and_self]
      have hrun : s.run (List.replicate (buf :: bufs).length .writer) =
          (Wal.step s .writer).run (List.replicate bufs.length .writer) := rfl
      obtain ⟨hpc', hposition', hstatus', hclients'⟩ := ih hstep
      rw [hrun, hpc', hposition', hstatus', hclients', hposition, List.flatten_cons,
        List.length_append, Nat.add_assoc]
      exact ⟨rfl, rfl, hstatus.1, hstatus.2⟩

/-- If the writer takes buffers together with a sync request, then it gets to a state in
which `sync_pos` is ahead of `write_pos`, whatever the clients do not do meanwhile. -/
theorem SyncInv.sync_ahead
    {origin : LogDir × WalWriter} {s : LogState}
    (h : SyncInv origin s)
    (hpc : s.pc = .waiting)
    (hflag : s.status.syncFlag = true)
    (hqueue : s.status.queue ≠ []) :
    ∃ n,
      (s.run (List.replicate n .writer)).status.writePos <
        (s.run (List.replicate n .writer)).status.syncPos ∧
      (s.run (List.replicate n .writer)).clients = s.clients := by
  have hwrite := h.log.writePos_eq (by rw [hpc]; rfl) (by rw [hpc]; simp)
  have hbytes : 0 < s.status.queue.flatten.length := by
    obtain ⟨buf, bufs, hcons⟩ := List.exists_cons_of_ne_nil hqueue
    obtain ⟨written, hbuffers, -, -⟩ := h.log.buffers
    have hmem : buf ∈ s.stored.map encodeEntry := by
      rw [hbuffers, hcons]
      simp
    obtain ⟨op, -, rfl⟩ := List.mem_map.mp hmem
    have hpos := List.length_pos_iff.mpr (encodeEntry_ne_nil op)
    rw [hcons, List.flatten_cons, List.length_append]
    omega
  -- the writer takes the work, writes the buffers, syncs and publishes `sync_pos`
  rcases h.log.takeWork_eq hpc with ⟨hempty, -⟩ | htake
  · exact absurd hempty hqueue
  obtain ⟨job, hjobFlag, hjobPos, htaken⟩ : ∃ job : Job,
      job.syncFlag = true ∧ job.syncPos = s.status.syncPos ∧
      Wal.step s .writer = { s with
        status := { s.status with queue := [], syncFlag := false }
        pc := .writing job s.status.queue } := by
    refine ⟨s.status.job, hflag, rfl, ?_⟩
    simpa only [Wal.step, Wal.writerStep, hpc] using htake
  have htakenPc : (Wal.step s .writer).pc = .writing job s.status.queue := by
    rw [htaken]
  obtain ⟨hpc', hposition', hstatus', hclients'⟩ := run_writing s.status.queue htakenPc
  refine ⟨1 + (s.status.queue.length + 2), ?_⟩
  have hrun : s.run (List.replicate (1 + (s.status.queue.length + 2)) .writer) =
      Wal.step (Wal.step ((Wal.step s .writer).run
        (List.replicate s.status.queue.length .writer)) .writer) .writer := by
    simp only [LogState.run, List.replicate_add, Runs.run_append]
    rfl
  rw [hrun]
  set s₁ := (Wal.step s .writer).run (List.replicate s.status.queue.length .writer)
  have hposition : s₁.writer.position = s.writer.position + s.status.queue.flatten.length := by
    rw [hposition', htaken]
  have hsync : job.syncFlag = true ∧ job.syncPos < s₁.writer.position := by
    have hle := h.syncPos_le
    exact ⟨hjobFlag, by omega⟩
  have hwritePos : s₁.status.writePos = s.status.writePos := by
    rw [hstatus', htaken]
  have hsynced : Wal.step s₁ .writer =
      { s₁ with durable := syncData s₁, pc := .publishSync job } := by
    simp only [Wal.step, Wal.writerStep, hpc', if_pos hsync]
  rw [hsynced]
  simp only [Wal.step, Wal.writerStep]
  refine ⟨by omega, ?_⟩
  rw [hclients', htaken]

/-- **The documented invariants.**  They hold in every state of every run in which the
writer never takes buffers and a sync request at once, and no assertion fails there.  When it
does take both, the writer alone gets to a state that violates them, and in that state the
assertion of `sync` fails for every client that calls it. -/
theorem documented_invariants_of_calm
    (origin : LogDir × WalWriter) (startPosition : Nat) (events : List Event) :
    (Runs.Along step Calm (LogState.start origin startPosition) events →
      ((LogState.start origin startPosition).run events).status.Ordered ∧
      (∀ p, ((LogState.start origin startPosition).run events).pc ≠ .panicked p) ∧
      ∀ c, ((LogState.start origin startPosition).run events).clients c ≠
        .panicked .syncNotBehind) ∧
    (¬ Calm ((LogState.start origin startPosition).run events) .writer →
      ∃ n,
        ¬ ((LogState.start origin startPosition).run
            (events ++ List.replicate n .writer)).status.Ordered ∧
        ∀ c, ((LogState.start origin startPosition).run events).clients c = .idle →
          ((LogState.start origin startPosition).run
            (events ++ List.replicate n .writer ++ [.call c .sync])).clients c =
              .panicked .syncNotBehind) := by
  constructor
  · intro hcalm
    have hstart : CalmInv origin (LogState.start origin startPosition) :=
      ⟨logInv_start origin startPosition, le_refl _, by simp [LogState.start, WriterPc.job?],
        by simp [LogState.start], by simp [LogState.start]⟩
    have h : CalmInv origin ((LogState.start origin startPosition).run events) :=
      Runs.invariant_along (fun s e hc hs => hs.step e hc) hstart hcalm
    have hqueue := h.log.queuePos_eq
    have hle := h.log.writePos_le
    exact ⟨⟨h.syncPos_le, by omega, h.log.flushPos_le⟩, h.log.no_panic, h.clients⟩
  · intro hnot
    have h := syncInv_run origin startPosition events
    simp only [Calm, true_implies, not_forall] at hnot
    obtain ⟨hpc, hflag, hqueue⟩ := hnot
    obtain ⟨n, hahead, hclients⟩ := h.sync_ahead hpc hflag hqueue
    refine ⟨n, ?_, ?_⟩
    · intro hordered
      have hle := hordered.1
      simp only [LogState.run, Runs.run_append] at hle hahead
      omega
    · intro c hidle
      simp only [LogState.run, Runs.run_append, Runs.run_cons, Runs.run_nil]
        at hahead hclients hidle ⊢
      rw [← hclients] at hidle
      simp only [Wal.step, if_pos hidle, callStep]
      rw [if_neg (by omega), if_neg (by omega)]
      exact Function.update_self _ _ _

/-- A client stores a record and asks for a sync.  Another client stores a second record
once the writer has taken the request, and a third one then moves the offset. -/
def storeSyncSetOffset : List Event :=
  storeOne shortPut ++
    [.call 0 .sync, .writer, .call 1 (.store [otherPut]), .writer, .writer, .writer, .resume 0,
      .writer, .writer, .writer, .writer, .resume 1,
      .call 2 (.setOffset 20), .writer, .writer, .writer, .writer, .resume 2]

/-- The writer takes the two records, the sync and the offset one by one. -/
theorem documented_invariants_one_by_one :
    Runs.Along step Calm LogState.new storeSyncSetOffset ∧
    (LogState.new.run storeSyncSetOffset).acknowledged = [20, 40] ∧
    (LogState.new.run storeSyncSetOffset).status.syncPos = 20 ∧
    (LogState.new.run storeSyncSetOffset).status.flushPos = 20 ∧
    (LogState.new.run storeSyncSetOffset).status.Ordered ∧
    ∀ c, (LogState.new.run storeSyncSetOffset).clients c ≠ .panicked .syncNotBehind := by
  have hcalm : Runs.Along step Calm LogState.new storeSyncSetOffset := by decide +kernel
  have h := (documented_invariants_of_calm (WalWriter.new fun _ => none) 0
    storeSyncSetOffset).1 hcalm
  exact ⟨hcalm, by decide +kernel, by decide +kernel, by decide +kernel, h.1, h.2.2⟩

/-- A record is stored; then a client asks for a sync, another one stores a second record,
and the writer takes both. -/
def syncWithStore : List Event :=
  storeOne shortPut ++
    [.call 0 .sync, .call 1 (.store [otherPut]), .writer, .writer, .writer, .writer]

/-- After the writer has published `sync_pos`, a third client that calls `sync` panics. -/
theorem sync_ahead_of_write :
    (LogState.new.run syncWithStore).status.syncPos = 40 ∧
    (LogState.new.run syncWithStore).status.writePos = 20 ∧
    ¬ (LogState.new.run syncWithStore).status.Ordered ∧
    (LogState.new.run (syncWithStore ++ [.call 2 .sync])).clients 2 =
      .panicked .syncNotBehind := by
  decide +kernel

end Wal
end LsmStore
