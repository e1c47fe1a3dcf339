import LsmStore.Lib.Runs
import LsmStore.Wal.Writer

/-!
# The write-ahead log as a running system

Any number of clients call `store`, `sync`, `set_offset` and `stop`; one task
runs `update_log` over and over.  They share the `LogStatus`, which is guarded
by a lock, and each section of code under that lock is one event here, as is
every access of the writer to a file.  The function `step` takes one event; an
event that cannot happen in a state leaves the state as it is.

Next to the state of the source there are three histories: the operations in
the order in which they were queued, the positions `store` has returned, and
for every page file how much of it has been synced.

`LogInv` is what holds in every state of every run: the bytes written so far,
those the writer has taken and those in the queue are the records of the
stored operations, and the page files are what the writer made of the former.
-/

namespace LsmStore
namespace Wal

/-- The state the clients and the writer share. -/
structure LogStatus where
  queuePos : Nat
  writePos : Nat
  syncPos : Nat
  queue : List (List UInt8)
  syncFlag : Bool
  offsetPos : Nat
  flushPos : Nat
  stopFlag : Bool
deriving DecidableEq

def LogStatus.new (position startPosition : Nat) : LogStatus where
  queuePos := position
  writePos := position
  syncPos := position
  queue := []
  syncFlag := false
  offsetPos := startPosition
  flushPos := startPosition
  stopFlag := false

/-- What `update_log` takes out of the status besides the queue. -/
structure Job where
  syncFlag : Bool
  syncPos : Nat
  newOffset : Option (Nat × Nat)
  stopFlag : Bool
deriving DecidableEq

/-- The panics in the clients' calls and in `update_log`. -/
inductive LogPanic where
  | syncNotBehind
  | offsetNotIncreased (newOffset offsetPos : Nat)
  | alreadyStopped
  | writerGone
  | offsetMismatch
  | positionMismatch
  | queueMismatch
  | writePosAhead
deriving DecidableEq

/-- The text a panic is reported with. -/
def LogPanic.message : LogPanic → String
  | syncNotBehind => "assertion failed: lock.sync_pos < lock.write_pos"
  | offsetNotIncreased newOffset offsetPos =>
      s!"Offset can only be increased! Requested {newOffset}, but was {offsetPos}"
  | alreadyStopped => "Already stopped?"
  | writerGone => "called `Result::unwrap()` on an `Err` value: RecvError(())"
  | offsetMismatch => "assertion `left == right` failed"
  | positionMismatch => "assertion `left == right` failed"
  | queueMismatch => "assertion `left == right` failed"
  | writePosAhead => "assertion failed: lock.write_pos <= self.position"

/-- Where the writer is in `update_log`. -/
inductive WriterPc where
  | waiting
  | writing (job : Job) (toWrite : List (List UInt8))
  | publishSync (job : Job)
  | removing (job : Job) (fpos newFilePos : Nat)
  | publish (job : Job)
  | finished
  | failed (e : Error)
  | panicked (p : LogPanic)
deriving DecidableEq

/-- Buffers taken from the queue that are not written yet. -/
def WriterPc.pending : WriterPc → List (List UInt8)
  | writing _ toWrite => toWrite
  | _ => []

/-- The job in progress. -/
def WriterPc.job? : WriterPc → Option Job
  | writing job _ => some job
  | publishSync job => some job
  | removing job _ _ => some job
  | publish job => some job
  | _ => none

/-- The functions a client can call. -/
inductive Call where
  | store (batch : List WriteOp)
  | sync
  | setOffset (newOffset : Nat)
  | stop
deriving DecidableEq

/-- Where a client is.  For `sync` the second number is the `write_pos` the call read. -/
inductive ClientPc where
  | idle
  | storing (endPos : Nat)
  | syncing (lastPos writePos : Nat)
  | settingOffset (newOffset : Nat)
  | stopping
  | panicked (p : LogPanic)
deriving DecidableEq

structure LogState where
  status : LogStatus
  dir : LogDir
  writer : WalWriter
  pc : WriterPc
  clients : Nat → ClientPc
  /-- The receiver that `stop` takes is gone. -/
  finishTaken : Bool
  /-- History: the stored operations, in the order of the queue. -/
  stored : List WriteOp
  /-- History: the positions `store` has returned. -/
  acknowledged : List Nat
  /-- History: how many bytes of each page file have been synced. -/
  durable : Nat → Nat

/-- A log with its writer task started, by `new` or by `open`. -/
def LogState.start (origin : LogDir × WalWriter) (startPosition : Nat) : LogState where
  status := LogStatus.new origin.2.position startPosition
  dir := origin.1
  writer := origin.2
  pc := .waiting
  clients := fun _ => .idle
  finishTaken := false
  stored := []
  acknowledged := []
  durable := fun _ => 0

/-- `WriteAheadLog::new` in a directory without log files. -/
def LogState.new : LogState :=
  LogState.start (WalWriter.new (fun _ => none)) 0

inductive Event where
  | call (client : Nat) (call : Call)
  | resume (client : Nat)
  | writer
deriving DecidableEq

/-- The first section of a call, up to the point where it waits or returns. -/
def callStep (s : LogState) (client : Nat) : Call → LogState
  | .store batch =>
      let writes := batch.map encodeEntry
      let endPos := s.status.queuePos + writes.flatten.length
      { s with
        status := { s.status with
          queue := s.status.queue ++ writes
          queuePos := s.status.queuePos + writes.flatten.length }
        clients := Function.update s.clients client (.storing endPos)
        stored := s.stored ++ batch }
  | .sync =>
      if s.status.syncPos = s.status.writePos then s
      else if s.status.syncPos < s.status.writePos then
        { s with
          status := { s.status with syncFlag := true }
          clients := Function.update s.clients client
            (.syncing s.status.syncPos s.status.writePos) }
      else
        { s with
          clients := Function.update s.clients client (.panicked .syncNotBehind) }
  | .setOffset newOffset =>
      if newOffset ≤ s.status.offsetPos then
        { s with
          clients := Function.update s.clients client
            (.panicked (.offsetNotIncreased newOffset s.status.offsetPos)) }
      else
        { s with
          status := { s.status with offsetPos := newOffset }
          clients := Function.update s.clients client (.settingOffset newOffset) }
  | .stop =>
      { s with
        status := { s.status with stopFlag := true }
        finishTaken := true
        clients := Function.update s.clients client
          (if s.finishTaken then .panicked .alreadyStopped else .stopping) }

/-- A waiting client looks at the status again. -/
def resumeStep (s : LogState) (client : Nat) : LogState :=
  match s.clients client with
  | .storing endPos =>
      if endPos ≤ s.status.writePos then
        { s with
          clients := Function.update s.clients client .idle
          acknowledged := s.acknowledged ++ [endPos] }
      else s
  | .syncing lastPos _ =>
      if lastPos < s.status.syncPos then
        { s with clients := Function.update s.clients client .idle }
      else s
  | .settingOffset newOffset =>
      if newOffset ≤ s.status.flushPos then
        { s with clients := Function.update s.clients client .idle }
      else s
  | .stopping =>
      match s.pc with
      | .finished => { s with clients := Function.update s.clients client .idle }
      | .failed _ =>
          { s with clients := Function.update s.clients client (.panicked .writerGone) }
      | .panicked _ =>
          { s with clients := Function.update s.clients client (.panicked .writerGone) }
      | _ => s
  | _ => s

/-- The new and the old offset, if the offset has moved. -/
def LogStatus.newOffset (status : LogStatus) : Option (Nat × Nat) :=
  if status.flushPos < status.offsetPos then some (status.offsetPos, status.flushPos)
  else none

/-- The section at the start of `update_log`: take the work, or keep waiting. -/
def takeWork (s : LogState) : LogState :=
  let status := { s.status with queue := [] }
  if s.status.offsetPos < s.status.flushPos then
    { s with status := status, pc := .panicked .offsetMismatch }
  else if s.status.queue ≠ [] ∨ s.status.newOffset ≠ none ∨ s.status.syncFlag ∨
      s.status.stopFlag then
    if s.writer.position = s.status.writePos then
      { s with
        status := { status with syncFlag := false }
        pc := .writing
          { syncFlag := s.status.syncFlag
            syncPos := s.status.syncPos
            newOffset := s.status.newOffset
            stopFlag := s.status.stopFlag }
          s.status.queue }
    else { s with status := status, pc := .panicked .positionMismatch }
  else if s.status.writePos = s.status.queuePos then s
  else { s with status := status, pc := .panicked .queueMismatch }

/-- `WalWriter::sync`: the file of the current handle is synced, and no other. -/
def syncData (s : LogState) : Nat → Nat :=
  match s.dir s.writer.logFile.page with
  | some content => Function.update s.durable s.writer.logFile.page content.length
  | none => s.durable

/-- Where `update_log` goes on behind the sync. -/
def afterSync (job : Job) : WriterPc :=
  match job.newOffset with
  | some (newOffset, oldOffset) =>
      .removing job (oldOffset / pageSize) (newOffset / pageSize)
  | none => .publish job

/-- The last section of `update_log`. -/
def publishWrites (s : LogState) (job : Job) : LogState :=
  if s.status.writePos ≤ s.writer.position then
    { s with
      status := { s.status with
        writePos := s.writer.position
        flushPos :=
          match job.newOffset with
          | some (newOffset, _) => newOffset
          | none => s.status.flushPos }
      pc := if job.stopFlag then .finished else .waiting }
  else
    { s with pc := .panicked .writePosAhead }

/-- The writer goes one step further in `update_log`. -/
def writerStep (s : LogState) : LogState :=
  match s.pc with
  | .waiting => takeWork s
  | .writing job (buf :: toWrite) =>
      let written := s.writer.writeAll s.dir buf
      { s with dir := written.1, writer := written.2, pc := .writing job toWrite }
  | .writing job [] =>
      if job.syncFlag ∧ job.syncPos < s.writer.position then
        { s with durable := syncData s, pc := .publishSync job }
      else { s with pc := afterSync job }
  | .publishSync job =>
      { s with
        status := { s.status with syncPos := s.writer.position }
        pc := afterSync job }
  | .removing job fpos newFilePos =>
      if fpos < newFilePos then
        match s.dir fpos with
        | some _ =>
            { s with
              dir := Function.update s.dir fpos none
              pc := .removing job (fpos + 1) newFilePos }
        | none => { s with pc := .failed (.io "Failed to remove log file" notFound) }
      else { s with pc := .publish job }
  | .publish job => publishWrites s job
  | .finished => s
  | .failed _ => s
  | .panicked _ => s

/-- One event; a client makes a call only when no other call of it is running. -/
def step (s : LogState) : Event → LogState
  | .call client call =>
      if s.clients client = .idle then callStep s client call else s
  | .resume client => resumeStep s client
  | .writer => writerStep s

/-- The state after a list of events. -/
def LogState.run (s : LogState) (events : List Event) : LogState :=
  Runs.run step s events

/-- One operation and everything it takes to write it: the writer takes the queue, writes
the record, passes the sync and publishes its position. -/
def storeOne (op : WriteOp) : List Event :=
  [.call 0 (.store [op]), .writer, .writer, .writer, .writer, .resume 0]

/-- Two operations with records of twenty bytes. -/
def shortPut : WriteOp :=
  .put (ByteVec.ofList [1]) (ByteVec.ofList [2])

def otherPut : WriteOp :=
  .put (ByteVec.ofList [3]) (ByteVec.ofList [4])

/-! ## What a step can do -/

/-- What a client can get to in one step, as far as `sync` is concerned. -/
def ClientPc.ReachedFrom (s : LogState) : ClientPc → Prop
  | .syncing lastPos writePos =>
      lastPos = s.status.syncPos ∧ writePos = s.status.writePos ∧ lastPos < writePos
  | .panicked p => p = .syncNotBehind → s.status.writePos < s.status.syncPos
  | _ => True

/-- A step of a client, with what it found. -/
inductive ClientStep (s : LogState) : Event → LogState → Prop
  /-- The client is not there, or has to wait. -/
  | stay {e : Event} : ClientStep s e s
  | store {client : Nat} {batch : List WriteOp}
      (hidle : s.clients client = .idle) :
      ClientStep s (.call client (.store batch)) (callStep s client (.store batch))
  /-- The client starts to wait for a sync, returns or panics. -/
  | move {e : Event} {client : Nat} {pc : ClientPc} {syncFlag : Bool}
      (hpc : pc.ReachedFrom s)
      (hstoring : ∀ endPos, pc ≠ .storing endPos) :
      ClientStep s e
        { s with
          status := { s.status with syncFlag := syncFlag }
          clients := Function.update s.clients client pc }
  | setOffset {client newOffset : Nat}
      (hlt : s.status.offsetPos < newOffset) :
      ClientStep s (.call client (.setOffset newOffset))
        { s with
          status := { s.status with offsetPos := newOffset }
          clients := Function.update s.clients client (.settingOffset newOffset) }
  | stop {client : Nat} {pc : ClientPc}
      (hpc : pc.ReachedFrom s)
      (hstoring : ∀ endPos, pc ≠ .storing endPos) :
      ClientStep s (.call client .stop)
        { s with
          status := { s.status with stopFlag := true }
          finishTaken := true
          clients := Function.update s.clients client pc }
  | acknowledge {client endPos : Nat}
      (hclient : s.clients client = .storing endPos)
      (hle : endPos ≤ s.status.writePos) :
      ClientStep s (.resume client)
        { s with
          clients := Function.update s.clients client .idle
          acknowledged := s.acknowledged ++ [endPos] }

theorem clientStep_callStep
    {s : LogState} {client : Nat}
    (hidle : s.clients client = .idle)
    (call : Call) :
    ClientStep s (.call client call) (callStep s client call) := by
  cases call with
  | store batch =>
      exact .store hidle
  | sync =>
      simp only [callStep]
      split_ifs with heq hlt
      · exact .stay
      · exact .move ⟨rfl, rfl, hlt⟩ nofun
      · exact .move (fun _ => by omega) nofun
  | setOffset newOffset =>
      simp only [callStep]
      split_ifs with hle
      · exact .move nofun nofun
      · exact .setOffset (not_le.mp hle)
  | stop =>
      simp only [callStep]
      split_ifs
      · exact .stop nofun nofun
      · exact .stop trivial nofun

theorem clientStep_resumeStep
    (s : LogState) (client : Nat) :
    ClientStep s (.resume client) (resumeStep s client) := by
  unfold resumeStep
  cases hclient : s.clients client with
  | storing endPos =>
      dsimp only
      split_ifs with hle
      · exact .acknowledge hclient hle
      · exact .stay
  | syncing lastPos writePos =>
      dsimp only
      split_ifs
      · exact .move trivial nofun
      · exact .stay
  | settingOffset newOffset =>
      dsimp only
      split_ifs
      · exact .move trivial nofun
      · exact .stay
  | stopping =>
      dsimp only
      split
      · exact .move trivial nofun
      · exact .move nofun nofun
      · exact .move nofun nofun
      · exact .stay
  | idle | panicked p =>
      exact .stay

theorem clientStep_step
    (s : LogState) {e : Event}
    (he : e ≠ .writer) :
    ClientStep s e (step s e) := by
  cases e with
  | call client call =>
      simp only [step]
      split_ifs with hidle
      · exact clientStep_callStep hidle call
      · exact .stay
  | resume client =>
      exact clientStep_resumeStep s client
  | writer =>
      exact absurd rfl he

/-- The job that is taken from a status. -/
def LogStatus.job (status : LogStatus) : Job where
  syncFlag := status.syncFlag
  syncPos := status.syncPos
  newOffset := status.newOffset
  stopFlag := status.stopFlag

/-- A step of the writer in which no assertion fails. -/
inductive WriterStep (s : LogState) : LogState → Prop
  /-- There is no work, or the task has ended. -/
  | stay
      (hjob : s.pc.job? = none) :
      WriterStep s s
  | take
      (hpc : s.pc = .waiting)
      (hposition : s.status.writePos = s.writer.position) :
      WriterStep s
        { s with
          status := { s.status with queue := [], syncFlag := false }
          pc := .writing s.status.job s.status.queue }
  | write {job : Job} {buf : List UInt8} {toWrite : List (List UInt8)}
      (hpc : s.pc = .writing job (buf :: toWrite)) :
      WriterStep s
        { s with
          dir := (s.writer.writeAll s.dir buf).1
          writer := (s.writer.writeAll s.dir buf).2
          pc := .writing job toWrite }
  | sync {job : Job}
      (hpc : s.pc = .writing job [])
      (hsync : job.syncFlag = true) :
      WriterStep s { s with durable := syncData s, pc := .publishSync job }
  | skipSync {job : Job}
      (hpc : s.pc = .writing job []) :
      WriterStep s { s with pc := afterSync job }
  | publishSync {job : Job}
      (hpc : s.pc = .publishSync job) :
      WriterStep s
        { s with
          status := { s.status with syncPos := s.writer.position }
          pc := afterSync job }
  | remove {job : Job} {fpos newFilePos : Nat} {content : List UInt8}
      (hpc : s.pc = .removing job fpos newFilePos)
      (hlt : fpos < newFilePos)
      (hcontent : s.dir fpos = some content) :
      WriterStep s
        { s with
          dir := Function.update s.dir fpos none
          pc := .removing job (fpos + 1) newFilePos }
  | failRemove {job : Job} {fpos newFilePos : Nat}
      (hpc : s.pc = .removing job fpos newFilePos)
      (hlt : fpos < newFilePos)
      (hnone : s.dir fpos = none) :
      WriterStep s { s with pc := .failed (.io "Failed to remove log file" notFound) }
  | removed {job : Job} {fpos newFilePos : Nat}
      (hpc : s.pc = .removing job fpos newFilePos)
      (hle : newFilePos ≤ fpos) :
      WriterStep s { s with pc := .publish job }
  | publish {job : Job}
      (hpc : s.pc = .publish job)
      (hle : s.status.writePos ≤ s.writer.position) :
      WriterStep s
        { s with
          status := { s.status with
            writePos := s.writer.position
            flushPos := (job.newOffset.map Prod.fst).getD s.status.flushPos }
          pc := if job.stopFlag then .finished else .waiting }

/-! ## The invariant -/

/-- What holds in every state of a log that was started from `origin`. -/
structure LogInv (origin : LogDir × WalWriter) (s : LogState) : Prop where
  /-- The page files from the offset on are what the writer made of the written buffers. -/
  buffers : ∃ written,
    s.stored.map encodeEntry = written ++ s.pc.pending ++ s.status.queue ∧
    s.writer = (WalWriter.writeBuffers origin.1 origin.2 written).2 ∧
    ∀ i, s.status.offsetPos / pageSize ≤ i →
      s.dir i = (WalWriter.writeBuffers origin.1 origin.2 written).1 i
  queuePos : s.status.queuePos = origin.2.position + (encode s.stored).length
  writePos_le : s.status.writePos ≤ s.writer.position
  writePos_eq : s.pc.job? = none → (∀ e, s.pc ≠ .failed e) →
    s.status.writePos = s.writer.position
  flushPos_le : s.status.flushPos ≤ s.status.offsetPos
  newOffset_le : ∀ job, s.pc.job? = some job →
    ∀ newOffset oldOffset, job.newOffset = some (newOffset, oldOffset) →
      newOffset ≤ s.status.offsetPos
  removing_le : ∀ job fpos newFilePos, s.pc = .removing job fpos newFilePos →
    newFilePos ≤ s.status.offsetPos / pageSize
  no_panic : ∀ p, s.pc ≠ .panicked p

/-- What is written, taken and queued adds up to the queue position. -/
theorem LogInv.queuePos_eq
    {origin : LogDir × WalWriter} {s : LogState}
    (h : LogInv origin s) :
    s.status.queuePos =
      s.writer.position + s.pc.pending.flatten.length + s.status.queue.flatten.length := by
  obtain ⟨written, hbuffers, hwriter, -⟩ := h.buffers
  have hencode : encode s.stored = (s.stored.map encodeEntry).flatten := rfl
  rw [h.queuePos, hwriter, hencode, hbuffers]
  simp only [WalWriter.writeBuffers_position, List.flatten_append, List.length_append]
  omega

theorem logInv_start
    (origin : LogDir × WalWriter) (startPosition : Nat) :
    LogInv origin (LogState.start origin startPosition) where
  buffers := ⟨[], rfl, rfl, fun _ _ => rfl⟩
  queuePos := rfl
  writePos_le := le_refl _
  writePos_eq := fun _ _ => rfl
  flushPos_le := le_refl _
  newOffset_le := by
    intro job hjob
    cases hjob
  removing_le := by
    intro job fpos newFilePos hpc
    cases hpc
  no_panic := by
    intro p hpc
    cases hpc

section Preservation

variable {origin : LogDir × WalWriter} {s : LogState}

/-- Clients do not touch anything the invariant speaks of. -/
theorem LogInv.of_clients
    (h : LogInv origin s)
    (clients : Nat → ClientPc) (finishTaken : Bool) (acknowledged : List Nat)
    (syncFlag stopFlag : Bool) :
    LogInv origin { s with
      status := { s.status with syncFlag := syncFlag, stopFlag := stopFlag }
      clients := clients
      finishTaken := finishTaken
      acknowledged := acknowledged } :=
  ⟨h.buffers, h.queuePos, h.writePos_le, h.writePos_eq, h.flushPos_le, h.newOffset_le,
    h.removing_le, h.no_panic⟩

theorem LogInv.clientStep
    {s' : LogState} {e : Event}
    (h : LogInv origin s)
    (hstep : ClientStep s e s') :
    LogInv origin s' := by
  cases hstep with
  | stay =>
      exact h
  | @store client batch =>
      obtain ⟨written, hbuffers, hwriter, hdir⟩ := h.buffers
      refine ⟨⟨written, ?_, hwriter, hdir⟩, ?_, h.writePos_le, h.writePos_eq, h.flushPos_le,
        h.newOffset_le, h.removing_le, h.no_panic⟩
      · simp only [Wal.callStep, List.map_append, hbuffers, List.append_assoc]
      · have hencode : encode batch = (batch.map encodeEntry).flatten := rfl
        simp only [Wal.callStep, h.queuePos, encode_append, List.length_append, hencode]
        omega
  | move | stop | acknowledge =>
      exact h.of_clients _ _ _ _ _
  | @setOffset client newOffset hlt =>
      have hdiv : s.status.offsetPos / pageSize ≤ newOffset / pageSize :=
        Nat.div_le_div_right (le_of_lt hlt)
      obtain ⟨written, hbuffers, hwriter, hdir⟩ := h.buffers
      exact ⟨⟨written, hbuffers, hwriter, fun i hi => hdir i (le_trans hdiv hi)⟩,
        h.queuePos, h.writePos_le, h.writePos_eq, le_trans h.flushPos_le (le_of_lt hlt),
        fun job hjob n o hn => le_trans (h.newOffset_le job hjob n o hn) (le_of_lt hlt),
        fun job fpos n hpc => le_trans (h.removing_le job fpos n hpc) hdiv, h.no_panic⟩

/-- The assertions at the start of `update_log` hold. -/
theorem LogInv.takeWork_eq
    (h : LogInv origin s)
    (hpc : s.pc = .waiting) :
    (s.status.queue = [] ∧ s.status.syncFlag = false ∧ s.status.newOffset = none ∧
        takeWork s = s) ∨
      takeWork s = { s with
        status := { s.status with queue := [], syncFlag := false }
        pc := .writing s.status.job s.status.queue } := by
  have hwrite : s.status.writePos = s.writer.position :=
    h.writePos_eq (by rw [hpc]; rfl) (by rw [hpc]; nofun)
  have hqueue := h.queuePos_eq
  have hflush := h.flushPos_le
  simp only [takeWork]
  rw [if_neg (not_lt.mpr hflush), if_pos hwrite.symm]
  split_ifs with hwork hall
  · exact Or.inr rfl
  · push Not at hwork
    exact Or.inl ⟨hwork.1, by simpa using hwork.2.2.1, hwork.2.1, rfl⟩
  · push Not at hwork
    rw [hpc, hwork.1, ← hwrite] at hqueue
    exact absurd hqueue.symm hall

/-- No assertion of `update_log` fails. -/
theorem LogInv.writerStep_cases
    (h : LogInv origin s) :
    WriterStep s (writerStep s) := by
  unfold writerStep
  cases hpc : s.pc with
  | waiting =>
      rcases h.takeWork_eq hpc with ⟨-, -, -, htake⟩ | htake
      · rw [htake]
        exact .stay (by rw [hpc]; rfl)
      · rw [htake]
        exact .take hpc (h.writePos_eq (by rw [hpc]; rfl) (by rw [hpc]; nofun))
  | writing job toWrite =>
      cases toWrite with
      | nil =>
          dsimp only
          split_ifs with hsync
          · exact .sync hpc hsync.1
          · exact .skipSync hpc
      | cons buf toWrite =>
          exact .write hpc
  | publishSync job =>
      exact .publishSync hpc
  | removing job fpos newFilePos =>
      dsimp only
      split_ifs with hlt
      · cases hcontent : s.dir fpos with
        | some content =>
            exact .remove hpc hlt hcontent
        | none =>
            exact .failRemove hpc hlt hcontent
      · exact .removed hpc (not_lt.mp hlt)
  | publish job =>
      have hflush : (match job.newOffset with
          | some (newOffset, _) => newOffset
          | none => s.status.flushPos) =
          (job.newOffset.map Prod.fst).getD s.status.flushPos := by
        cases job.newOffset <;> rfl
      simp only [publishWrites, if_pos h.writePos_le, hflush]
      exact .publish hpc h.writePos_le
  | finished | failed | panicked =>
      exact .stay (by rw [hpc]; rfl)

/-- What a step of the writer that keeps the bytes in place has to show. -/
theorem LogInv.of_pc
    (h : LogInv origin s)
    {pc : WriterPc}
    (syncPos : Nat) (durable : Nat → Nat)
    (hpending : pc.pending = s.pc.pending)
    (hjob : pc.job? = none → ∃ e, pc = .failed e)
    (hoffset : ∀ job, pc.job? = some job → s.pc.job? = some job)
    (hremoving : ∀ job fpos newFilePos, pc = .removing job fpos newFilePos →
      newFilePos ≤ s.status.offsetPos / pageSize)
    (hpanic : ∀ p, pc ≠ .panicked p) :
    LogInv origin { s with
      status := { s.status with syncPos := syncPos }
      pc := pc
      durable := durable } where
  buffers := by
    simpa only [hpending] using h.buffers
  queuePos := h.queuePos
  writePos_le := h.writePos_le
  writePos_eq := by
    intro hnone hfailed
    obtain ⟨e, he⟩ := hjob hnone
    exact absurd he (hfailed e)
  flushPos_le := h.flushPos_le
  newOffset_le := fun job hj => h.newOffset_le job (hoffset job hj)
  removing_le := hremoving
  no_panic := hpanic

@[simp] theorem afterSync_job
    (job : Job) :
    (afterSync job).job? = some job := by
  unfold afterSync
  split <;> rfl

@[simp] theorem afterSync_pending
    (job : Job) :
    (afterSync job).pending = [] := by
  unfold afterSync
  split <;> rfl

theorem LogInv.afterSync
    (h : LogInv origin s)
    {job : Job}
    (hjob : s.pc.job? = some job)
    (hpending : s.pc.pending = [])
    (syncPos : Nat) :
    LogInv origin { s with
      status := { s.status with syncPos := syncPos }
      pc := afterSync job } := by
  apply h.of_pc syncPos s.durable
  · rw [afterSync_pending, hpending]
  · simp
  · simpa using hjob
  · intro job' fpos newFilePos hpc
    have hnew : ∃ newOffset oldOffset,
        job.newOffset = some (newOffset, oldOffset) ∧ newFilePos = newOffset / pageSize := by
      unfold Wal.afterSync at hpc
      cases heq : job.newOffset with
      | none =>
          simp only [heq] at hpc
          cases hpc
      | some offsets =>
          simp only [heq] at hpc
          cases hpc
          exact ⟨offsets.1, offsets.2, rfl, rfl⟩
    obtain ⟨newOffset, oldOffset, heq, rfl⟩ := hnew
    exact Nat.div_le_div_right (h.newOffset_le job hjob _ _ heq)
  · intro p hpc
    have hnone := afterSync_job job
    rw [hpc] at hnone
    cases hnone

/-- A buffer is moved from the pending ones to the page files. -/
theorem LogInv.writeBuffer
    (h : LogInv origin s)
    {job : Job} {buf : List UInt8} {toWrite : List (List UInt8)}
    (hpc : s.pc = .writing job (buf :: toWrite)) :
    LogInv origin { s with
      dir := (s.writer.writeAll s.dir buf).1
      writer := (s.writer.writeAll s.dir buf).2
      pc := .writing job toWrite } := by
  obtain ⟨written, hbuffers, hwriter, hdir⟩ := h.buffers
  have hjob : s.pc.job? = some job := by
    rw [hpc]
    rfl
  refine ⟨⟨written ++ [buf], ?_, ?_, ?_⟩, h.queuePos, ?_, ?_, h.flushPos_le, ?_, ?_, ?_⟩
  · simpa [hpc, WriterPc.pending] using hbuffers
  · rw [WalWriter.writeBuffers_append, ← hwriter]
    exact (writeAll_agree hdir s.writer buf).1
  · intro i hi
    rw [WalWriter.writeBuffers_append, ← hwriter]
    exact (writeAll_agree hdir s.writer buf).2 i hi
  · have hle := h.writePos_le
    simp only [WalWriter.writeAll_position]
    omega
  · intro hnone
    cases hnone
  · intro job' hjob'
    cases hjob'
    exact h.newOffset_le job hjob
  · intro job' fpos newFilePos hpc'
    cases hpc'
  · intro p hpc'
    cases hpc'

theorem LogInv.removeFile
    (h : LogInv origin s)
    {job : Job} {fpos newFilePos : Nat}
    (hpc : s.pc = .removing job fpos newFilePos)
    (hlt : fpos < newFilePos) :
    LogInv origin { s with
      dir := Function.update s.dir fpos none
      pc := .removing job (fpos + 1) newFilePos } := by
  obtain ⟨written, hbuffers, hwriter, hdir⟩ := h.buffers
  have hle := h.removing_le job fpos newFilePos hpc
  have hjob : s.pc.job? = some job := by
    rw [hpc]
    rfl
  refine ⟨⟨written, ?_, hwriter, ?_⟩, h.queuePos, h.writePos_le, ?_, h.flushPos_le, ?_, ?_, ?_⟩
  · simpa [hpc, WriterPc.pending] using hbuffers
  · intro i hi
    have hne : i ≠ fpos := by
      simp only at hi
      omega
    exact (Function.update_of_ne hne _ _).trans (hdir i hi)
  · intro hnone
    cases hnone
  · intro job' hjob'
    cases hjob'
    exact h.newOffset_le job hjob
  · intro job' fpos' newFilePos' hpc'
    cases hpc'
    exact hle
  · intro p hpc'
    cases hpc'

theorem LogInv.publish
    (h : LogInv origin s)
    {job : Job}
    (hpc : s.pc = .publish job) :
    LogInv origin { s with
      status := { s.status with
        writePos := s.writer.position
        flushPos := (job.newOffset.map Prod.fst).getD s.status.flushPos }
      pc := if job.stopFlag then .finished else .waiting } := by
  have hjob : s.pc.job? = some job := by
    rw [hpc]
    rfl
  cases job.stopFlag
  all_goals
    refine ⟨?_, h.queuePos, le_refl _, fun _ _ => rfl, ?_, nofun, nofun, nofun⟩
    · simpa [hpc, WriterPc.pending] using h.buffers
    · cases hnew : job.newOffset with
      | none =>
          exact h.flushPos_le
      | some offsets =>
          exact h.newOffset_le job hjob offsets.1 offsets.2 hnew

theorem LogInv.writerStep
    {s' : LogState}
    (h : LogInv origin s)
    (hstep : WriterStep s s') :
    LogInv origin s' := by
  cases hstep with
  | stay =>
      exact h
  | take hpc =>
      refine ⟨?_, h.queuePos, h.writePos_le, nofun, h.flushPos_le, ?_, nofun, nofun⟩
      · simpa [hpc, WriterPc.pending] using h.buffers
      · rintro job ⟨⟩ newOffset oldOffset hnew
        simp only [LogStatus.job, LogStatus.newOffset] at hnew
        split_ifs at hnew
        cases hnew
        exact le_refl _
  | write hpc =>
      exact h.writeBuffer hpc
  | sync hpc =>
      exact h.of_pc s.status.syncPos (syncData s) (by rw [hpc]; rfl) nofun
        (fun _ hj => by rw [hpc]; exact hj) nofun nofun
  | skipSync hpc =>
      exact h.afterSync (by rw [hpc]; rfl) (by rw [hpc]; rfl) s.status.syncPos
  | publishSync hpc =>
      exact h.afterSync (by rw [hpc]; rfl) (by rw [hpc]; rfl) s.writer.position
  | remove hpc hlt =>
      exact h.removeFile hpc hlt
  | failRemove hpc =>
      exact h.of_pc s.status.syncPos s.durable (by rw [hpc]; rfl) (fun _ => ⟨_, rfl⟩) nofun
        nofun nofun
  | removed hpc =>
      exact h.of_pc s.status.syncPos s.durable (by rw [hpc]; rfl) nofun
        (fun _ hj => by rw [hpc]; exact hj) nofun nofun
  | publish hpc =>
      exact h.publish hpc

theorem LogInv.step
    (h : LogInv origin s)
    (event : Event) :
    LogInv origin (step s event) := by
  by_cases hevent : event = .writer
  · rw [hevent]
    exact h.writerStep h.writerStep_cases
  · exact h.clientStep (clientStep_step s hevent)

end Preservation

/-- **Every state of a running log** satisfies the invariant. -/
theorem logInv_run
    (origin : LogDir × WalWriter) (startPosition : Nat) (events : List Event) :
    LogInv origin ((LogState.start origin startPosition).run events) :=
  Runs.invariant (fun _ e h => h.step e) (logInv_start origin startPosition) events

/-- The two states agree in everything only the writer changes. -/
structure SameWriter (s s' : LogState) : Prop where
  dir : s'.dir = s.dir
  writer : s'.writer = s.writer
  pc : s'.pc = s.pc
  durable : s'.durable = s.durable
  writePos : s'.status.writePos = s.status.writePos
  syncPos : s'.status.syncPos = s.status.syncPos

theorem ClientStep.sameWriter
    {s s' : LogState} {e : Event}
    (h : ClientStep s e s') :
    SameWriter s s' := by
  cases h <;> exact ⟨rfl, rfl, rfl, rfl, rfl, rfl⟩

/-- A client that moves gets to where its step leads; the others stay. -/
theorem ClientStep.reached
    {s s' : LogState} {e : Event}
    (h : ClientStep s e s')
    (c : Nat) :
    s'.clients c = s.clients c ∨ (s'.clients c).ReachedFrom s := by
  have hupdate : ∀ client pc, pc.ReachedFrom s →
      Function.update s.clients client pc c = s.clients c ∨
        (Function.update s.clients client pc c).ReachedFrom s := by
    intro client pc hpc
    rw [Function.update_apply]
    split_ifs
    · exact Or.inr hpc
    · exact Or.inl rfl
  cases h with
  | stay =>
      exact Or.inl rfl
  | move hpc | stop hpc =>
      exact hupdate _ _ hpc
  | store | setOffset | acknowledge =>
      exact hupdate _ _ trivial

theorem WriterStep.clients
    {s s' : LogState}
    (h : WriterStep s s') :
    s'.clients = s.clients ∧ s'.stored = s.stored ∧ s'.acknowledged = s.acknowledged := by
  cases h <;> exact ⟨rfl, rfl, rfl⟩

/-- A position between two stored operations. -/
def RecordBoundary (first : Nat) (stored : List WriteOp) (p : Nat) : Prop :=
  ∃ before after, stored = before ++ after ∧ p = first + (encode before).length

theorem RecordBoundary.append
    {first : Nat} {stored : List WriteOp} {p : Nat}
    (h : RecordBoundary first stored p)
    (batch : List WriteOp) :
    RecordBoundary first (stored ++ batch) p := by
  obtain ⟨before, after, rfl, hp⟩ := h
  exact ⟨before, after ++ batch, List.append_assoc _ _ _, hp⟩

/-- The positions `store` returns, or is going to return, lie between two operations. -/
structure AckInv (origin : LogDir × WalWriter) (s : LogState) : Prop where
  log : LogInv origin s
  storing : ∀ client endPos, s.clients client = .storing endPos →
    RecordBoundary origin.2.position s.stored endPos
  acknowledged : ∀ p ∈ s.acknowledged, RecordBoundary origin.2.position s.stored p

/-- A client that does not go to `store` does not wait in it. -/
theorem update_storing
    {clients : Nat → ClientPc} {client c endPos : Nat} {pc : ClientPc}
    (hpc : ∀ endPos, pc ≠ .storing endPos)
    (h : Function.update clients client pc c = .storing endPos) :
    clients c = .storing endPos := by
  rw [Function.update_apply] at h
  split_ifs at h
  · exact absurd h (hpc endPos)
  · exact h

theorem AckInv.clientStep
    {origin : LogDir × WalWriter} {s s' : LogState} {e : Event}
    (h : AckInv origin s)
    (hstep : ClientStep s e s') :
    AckInv origin s' := by
  have hlog := h.log.clientStep hstep
  cases hstep with
  | stay =>
      exact h
  | @store client batch =>
      refine ⟨hlog, ?_, fun p hp => (h.acknowledged p hp).append batch⟩
      intro c endPos hc
      simp only [callStep, Function.update_apply] at hc
      split_ifs at hc
      · cases hc
        refine ⟨s.stored ++ batch, [], (List.append_nil _).symm, ?_⟩
        have hencode : encode batch = (batch.map encodeEntry).flatten := rfl
        rw [h.log.queuePos, encode_append, List.length_append, hencode, Nat.add_assoc]
      · exact (h.storing c endPos hc).append batch
  | move hpc hstoring | stop hpc hstoring =>
      exact ⟨hlog, fun c endPos hc => h.storing c endPos (update_storing hstoring hc),
        h.acknowledged⟩
  | setOffset =>
      exact ⟨hlog, fun c endPos hc => h.storing c endPos (update_storing (by nofun) hc),
        h.acknowledged⟩
  | @acknowledge client endPos hclient =>
      refine ⟨hlog, fun c endPos hc => h.storing c endPos (update_storing (by nofun) hc), ?_⟩
      intro p hp
      rcases List.mem_append.mp hp with hold | hnew
      · exact h.acknowledged p hold
      · rw [List.mem_singleton.mp hnew]
        exact h.storing client endPos hclient

theorem AckInv.step
    {origin : LogDir × WalWriter} {s : LogState}
    (h : AckInv origin s)
    (event : Event) :
    AckInv origin (step s event) := by
  by_cases hevent : event = .writer
  · rw [hevent]
    have hstep := h.log.writerStep_cases
    obtain ⟨hclients, hstored, hack⟩ := hstep.clients
    refine ⟨h.log.writerStep hstep, ?_, ?_⟩
    · simp only [Wal.step, hclients, hstored]
      exact h.storing
    · simp only [Wal.step, hack, hstored]
      exact h.acknowledged
  · exact h.clientStep (clientStep_step s hevent)

theorem ackInv_run
    (origin : LogDir × WalWriter) (startPosition : Nat) (events : List Event) :
    AckInv origin ((LogState.start origin startPosition).run events) :=
  Runs.invariant (fun _ e h => h.step e)
    ⟨logInv_start origin startPosition, by simp [LogState.start], by simp [LogState.start]⟩
    events

theorem LogInv.all_written
    {origin : LogDir × WalWriter} {s : LogState}
    (h : LogInv origin s)
    (hall : s.status.writePos = s.status.queuePos) :
    s.pc.pending ++ s.status.queue = [] := by
  obtain ⟨written, hbuffers, -, -⟩ := h.buffers
  have hqueue := h.queuePos_eq
  have hle := h.writePos_le
  have hflat : (s.pc.pending ++ s.status.queue).flatten.length = 0 := by
    rw [List.flatten_append, List.length_append]
    omega
  -- every buffer is a record, and no record is empty
  have hrecord : ∀ buf ∈ s.pc.pending ++ s.status.queue, buf ≠ [] := by
    intro buf hbuf
    have hmem : buf ∈ s.stored.map encodeEntry := by
      rw [hbuffers, List.append_assoc]
      exact List.mem_append_right _ hbuf
    obtain ⟨op, -, rfl⟩ := List.mem_map.mp hmem
    exact encodeEntry_ne_nil op
  cases hbufs : s.pc.pending ++ s.status.queue with
  | nil =>
      rfl
  | cons buf bufs =>
      rw [hbufs] at hflat hrecord
      have hpos := List.length_pos_iff.mpr (hrecord buf List.mem_cons_self)
      rw [List.flatten_cons, List.length_append] at hflat
      omega

/-- The page files of a log that was created empty: from the offset on they hold the
records of the operations written so far, and the writer stands at their end. -/
theorem new_run_files
    (events : List Event) :
    ∃ ops rest,
      (LogState.new.run events).stored = ops ++ rest ∧
      (LogState.new.run events).writer.position = (encode ops).length ∧
      (∀ i, (LogState.new.run events).status.offsetPos / pageSize ≤ i →
        (LogState.new.run events).dir i = PagedStream.page pageSize (encode ops) i) ∧
      ((LogState.new.run events).status.writePos = (LogState.new.run events).status.queuePos →
        rest = []) := by
  have h := logInv_run (WalWriter.new (fun _ => none)) 0 events
  change LogInv (WalWriter.new (fun _ => none)) (LogState.new.run events) at h
  obtain ⟨written, hbuffers, hwriter, hdir⟩ := h.buffers
  have hplaced := (placed_new (fun _ => none) (fun _ => rfl)).writeBuffers written
  rw [List.append_assoc, List.map_eq_append_iff] at hbuffers
  obtain ⟨ops, rest, hstored, hops, hrest⟩ := hbuffers
  have hstream : [] ++ written.flatten = encode ops := by
    rw [List.nil_append, ← hops]
    rfl
  rw [hstream] at hplaced
  refine ⟨ops, rest, hstored, ?_, ?_, ?_⟩
  · rw [hwriter, hplaced.position]
  · intro i hi
    rw [hdir i hi, hplaced.pages]
  · intro hall
    rw [h.all_written hall] at hrest
    exact List.map_eq_nil_iff.mp hrest

end Wal
end LsmStore
