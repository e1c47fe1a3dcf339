import LsmStore.Wal.System

/-!
# What a returned `store` guarantees

A client computes the position it returns from `queue_pos`, when it appends its
records to the queue; the writer counts the bytes it writes, and publishes that
count as `write_pos`.  Nothing compares the two but the test a client makes
before it returns.

Here the calls of `store` are recorded next to a run, with the client, the
batch and the position the client waits for.  The ranges of the calls follow
each other in the order of the queue, the buffers written, taken and queued are
the records of the calls in that order, and so a call that returns finds its
records where its range is.
-/

namespace LsmStore
namespace Wal

open PagedStream

/-- A call of `store`, with the position the client waits for. -/
structure StoreCall where
  client : Nat
  batch : List WriteOp
  endPos : Nat
deriving DecidableEq

/-- The records of the batch. -/
def StoreCall.bytes (c : StoreCall) : List UInt8 :=
  encode c.batch

/-- The call of `store` that an event makes. -/
def storeCall (s : LogState) : Event → List StoreCall
  | .call client (.store batch) =>
      if s.clients client = .idle then
        match (callStep s client (.store batch)).clients client with
        | .storing endPos => [⟨client, batch, endPos⟩]
        | _ => []
      else []
  | _ => []

/-- The calls of `store` in a run, in the order in which they take the lock of the queue. -/
def storeCalls : LogState → List Event → List StoreCall
  | _, [] => []
  | s, e :: events => storeCall s e ++ storeCalls (step s e) events

/-- The last call of a client. -/
def lastCall (calls : List StoreCall) (client : Nat) : Option StoreCall :=
  (calls.filter fun c => c.client == client).getLast?

/-- The client whose `store` an event lets return, and the position it returns. -/
def storeReturns (s : LogState) : Event → Option (Nat × Nat)
  | .resume client =>
      match s.clients client with
      | .storing endPos =>
          if endPos ≤ s.status.writePos then some (client, endPos) else none
      | _ => none
  | _ => none

/-- From `first` on, each call has the range behind that of the call before it. -/
def Consecutive : Nat → List StoreCall → Prop
  | _, [] => True
  | first, c :: calls => c.endPos = first + c.bytes.length ∧ Consecutive c.endPos calls

/-- The bytes of all calls. -/
def storedBytes (calls : List StoreCall) : List UInt8 :=
  calls.flatMap StoreCall.bytes

theorem consecutive_append
    {first : Nat} {calls calls' : List StoreCall} :
    Consecutive first (calls ++ calls') ↔
      Consecutive first calls ∧ Consecutive (first + (storedBytes calls).length) calls' := by
  induction calls generalizing first with
  | nil =>
      simp [Consecutive, storedBytes]
  | cons c calls ih =>
      have hlen : (storedBytes (c :: calls)).length =
          c.bytes.length + (storedBytes calls).length := by
        simp [storedBytes]
      simp only [List.cons_append, Consecutive, ih, hlen]
      constructor
      · rintro ⟨hend, hcalls, hrest⟩
        exact ⟨⟨hend, hcalls⟩, by rwa [← Nat.add_assoc, ← hend]⟩
      · rintro ⟨⟨hend, hcalls⟩, hrest⟩
        exact ⟨hend, hcalls, by rwa [hend, Nat.add_assoc]⟩

theorem encode_flatMap_batch
    (calls : List StoreCall) :
    encode (calls.flatMap StoreCall.batch) = storedBytes calls := by
  induction calls with
  | nil =>
      rfl
  | cons c calls ih =>
      rw [List.flatMap_cons, encode_append, ih]
      rfl

theorem lastCall_append_self
    (calls : List StoreCall) (c : StoreCall) :
    lastCall (calls ++ [c]) c.client = some c := by
  simp [lastCall, List.filter_append]

theorem lastCall_append_of_ne
    (calls : List StoreCall) {c : StoreCall} {client : Nat}
    (h : client ≠ c.client) :
    lastCall (calls ++ [c]) client = lastCall calls client := by
  simp [lastCall, List.filter_append, Ne.symm h]

theorem mem_of_lastCall
    {calls : List StoreCall} {client : Nat} {c : StoreCall}
    (h : lastCall calls client = some c) :
    c ∈ calls :=
  List.mem_of_mem_filter (List.mem_of_getLast? h)

/-- The calls recorded so far and the state of the log. -/
structure CallsInv (origin : LogDir × WalWriter) (s : LogState) (calls : List StoreCall) :
    Prop where
  log : LogInv origin s
  stored : s.stored = calls.flatMap StoreCall.batch
  ranges : Consecutive origin.2.position calls
  waiting : ∀ client endPos, s.clients client = .storing endPos →
    ∃ c, lastCall calls client = some c ∧ c.endPos = endPos

section Steps

variable {origin : LogDir × WalWriter} {s : LogState} {calls : List StoreCall}

/-- A step that stores nothing, after which no further client waits in `store`. -/
theorem CallsInv.quiet
    {s' : LogState}
    (h : CallsInv origin s calls)
    (hlog : LogInv origin s')
    (hstored : s'.stored = s.stored)
    (hclients : ∀ client endPos, s'.clients client = .storing endPos →
      s.clients client = .storing endPos) :
    CallsInv origin s' calls :=
  ⟨hlog, hstored.trans h.stored, h.ranges,
    fun client endPos hc => h.waiting client endPos (hclients client endPos hc)⟩

/-- A call of `store` gets the range at the end of the queue. -/
theorem CallsInv.store
    (h : CallsInv origin s calls)
    {client : Nat} (batch : List WriteOp)
    (hidle : s.clients client = .idle) :
    CallsInv origin (callStep s client (.store batch))
      (calls ++ [⟨client, batch, s.status.queuePos + (encode batch).length⟩]) := by
  refine ⟨h.log.clientStep (.store hidle), ?_, ?_, ?_⟩
  · simp [callStep, h.stored]
  · refine consecutive_append.mpr ⟨h.ranges, ?_, trivial⟩
    rw [h.log.queuePos, h.stored, encode_flatMap_batch]
    rfl
  · intro c endPos hc
    simp only [callStep, Function.update_apply] at hc
    split_ifs at hc with heq
    · cases hc
      subst heq
      exact ⟨_, lastCall_append_self calls _, by rfl⟩
    · obtain ⟨d, hd, hend⟩ := h.waiting c endPos hc
      exact ⟨d, (lastCall_append_of_ne calls heq).trans hd, hend⟩

theorem storeCall_eq_nil
    {e : Event}
    (h : ∀ client batch, e = .call client (.store batch) → s.clients client ≠ .idle) :
    storeCall s e = [] := by
  cases e with
  | call client call =>
      cases call with
      | store batch =>
          exact if_neg (h client batch rfl)
      | _ =>
          rfl
  | _ =>
      rfl

theorem ClientStep.stores_nothing
    {s' : LogState} {e : Event}
    (hstep : ClientStep s e s')
    (h : ∀ client batch, e = .call client (.store batch) → s.clients client ≠ .idle) :
    s'.stored = s.stored ∧
    ∀ client endPos, s'.clients client = .storing endPos →
      s.clients client = .storing endPos := by
  cases hstep with
  | stay =>
      exact ⟨rfl, fun _ _ hc => hc⟩
  | store hidle =>
      exact absurd hidle (h _ _ rfl)
  | move hpc hstoring | stop hpc hstoring =>
      exact ⟨rfl, fun _ _ hc => update_storing hstoring hc⟩
  | setOffset | acknowledge =>
      exact ⟨rfl, fun _ _ hc => update_storing (by nofun) hc⟩

theorem CallsInv.step
    (h : CallsInv origin s calls)
    (e : Event) :
    CallsInv origin (step s e) (calls ++ storeCall s e) := by
  by_cases hstore : ∀ client batch, e = .call client (.store batch) → s.clients client ≠ .idle
  · rw [storeCall_eq_nil hstore, List.append_nil]
    by_cases hevent : e = .writer
    · rw [hevent]
      have hstep := h.log.writerStep_cases
      obtain ⟨hclients, hstored, -⟩ := hstep.clients
      exact h.quiet (h.log.writerStep hstep) hstored fun _ _ hc => hclients ▸ hc
    · have hstep := clientStep_step s hevent
      obtain ⟨hstored, hclients⟩ := hstep.stores_nothing hstore
      exact h.quiet (h.log.clientStep hstep) hstored hclients
  · push Not at hstore
    obtain ⟨client, batch, rfl, hidle⟩ := hstore
    have hcall : storeCall s (.call client (.store batch)) =
        [⟨client, batch, s.status.queuePos + (encode batch).length⟩] := by
      simp [storeCall, hidle, callStep, encode, List.flatMap]
    have hstep : Wal.step s (.call client (.store batch)) =
        callStep s client (.store batch) := if_pos hidle
    rw [hcall, hstep]
    exact h.store batch hidle

theorem CallsInv.run
    (h : CallsInv origin s calls)
    (events : List Event) :
    CallsInv origin (s.run events) (calls ++ storeCalls s events) := by
  induction events generalizing s calls with
  | nil =>
      simpa [storeCalls, LogState.run] using h
  | cons e events ih =>
      have hnext := ih (h.step e)
      rw [List.append_assoc] at hnext
      exact hnext

end Steps

theorem callsInv_run
    (origin : LogDir × WalWriter) (startPosition : Nat) (events : List Event) :
    CallsInv origin ((LogState.start origin startPosition).run events)
      (storeCalls (LogState.start origin startPosition) events) := by
  have hstart : CallsInv origin (LogState.start origin startPosition) [] :=
    ⟨logInv_start origin startPosition, rfl, trivial, by simp [LogState.start]⟩
  exact hstart.run events

/-- A part of a list that lies within a prefix of it. -/
theorem slice_of_prefix
    {α : Type} {before mid after written rest : List α}
    (h : before ++ mid ++ after = written ++ rest)
    (hle : before.length + mid.length ≤ written.length) :
    (written.drop before.length).take mid.length = mid := by
  have hdrop : (written ++ rest).drop before.length = written.drop before.length ++ rest :=
    List.drop_append_of_le_length (by omega)
  have htake : (written.drop before.length ++ rest).take mid.length =
      (written.drop before.length).take mid.length :=
    List.take_append_of_le_length (by rw [List.length_drop]; omega)
  rw [← htake, ← hdrop, ← h, List.append_assoc, List.drop_left, List.take_left]

/-- The records of a call are in the written bytes once `write_pos` has passed its range. -/
theorem CallsInv.slice
    {origin : LogDir × WalWriter} {s : LogState} {calls : List StoreCall}
    (h : CallsInv origin s calls)
    {written : List (List UInt8)}
    (hbuffers : s.stored.map encodeEntry = written ++ s.pc.pending ++ s.status.queue)
    (hposition : s.writer.position = origin.2.position + written.flatten.length)
    {c : StoreCall}
    (hc : c ∈ calls)
    (hle : c.endPos ≤ s.status.writePos) :
    (written.flatten.drop (c.endPos - c.bytes.length - origin.2.position)).take
      c.bytes.length = c.bytes := by
  obtain ⟨before, after, rfl⟩ := List.append_of_mem hc
  obtain ⟨-, hend, -⟩ := consecutive_append.mp h.ranges
  have hwrite := h.log.writePos_le
  have hstream : storedBytes before ++ c.bytes ++ storedBytes after =
      written.flatten ++ (s.pc.pending ++ s.status.queue).flatten := by
    have hencode : encode s.stored = (s.stored.map encodeEntry).flatten := rfl
    rw [hbuffers, h.stored, encode_flatMap_batch, List.append_assoc, List.flatten_append]
      at hencode
    rw [← hencode]
    simp [storedBytes]
  have hstart : c.endPos - c.bytes.length - origin.2.position = (storedBytes before).length := by
    omega
  rw [hstart]
  exact slice_of_prefix hstream (by omega)

/-- **What a returned `store` guarantees**, in every state of every run of a log.  The ranges
of the calls partition the positions from the start of the log to `queue_pos`, in the order of
the queue.  The buffers the writer has written, those it has taken and those in the queue are
the records of the calls in that order, each once; the page files from the offset on hold the
written ones, if they held a stream with the writer at its end to begin with.  When a call
returns a position, its records are the written bytes that end there. -/
theorem store_acknowledged
    (origin : LogDir × WalWriter) (startPosition : Nat) (events : List Event) :
    let s := (LogState.start origin startPosition).run events
    let calls := storeCalls (LogState.start origin startPosition) events
    Consecutive origin.2.position calls ∧
      s.status.queuePos = origin.2.position + (storedBytes calls).length ∧
      ∃ written : List (List UInt8),
        (calls.flatMap StoreCall.batch).map encodeEntry =
            written ++ s.pc.pending ++ s.status.queue ∧
        s.writer = (WalWriter.writeBuffers origin.1 origin.2 written).2 ∧
        s.writer.position = origin.2.position + written.flatten.length ∧
        (∀ i, s.status.offsetPos / pageSize ≤ i →
          s.dir i = (WalWriter.writeBuffers origin.1 origin.2 written).1 i) ∧
        (∀ stream, Placed origin.1 origin.2 stream → ∀ i, s.status.offsetPos / pageSize ≤ i →
          s.dir i = page pageSize (stream ++ written.flatten) i) ∧
        ∀ event client endPos, storeReturns s event = some (client, endPos) →
          ∃ c, lastCall calls client = some c ∧ c.endPos = endPos ∧
            (written.flatten.drop (endPos - c.bytes.length - origin.2.position)).take
              c.bytes.length = c.bytes := by
  intro s calls
  have h : CallsInv origin s calls := callsInv_run origin startPosition events
  obtain ⟨written, hbuffers, hwriter, hdir⟩ := h.log.buffers
  have hposition : s.writer.position = origin.2.position + written.flatten.length := by
    rw [hwriter, WalWriter.writeBuffers_position]
  refine ⟨h.ranges, ?_, written, h.stored ▸ hbuffers, hwriter, hposition, hdir, ?_, ?_⟩
  · rw [h.log.queuePos, h.stored, encode_flatMap_batch]
  · intro stream hplaced i hi
    rw [hdir i hi]
    exact (hplaced.writeBuffers written).pages i
  · intro event client endPos hreturn
    cases event with
    | call client' call =>
        cases hreturn
    | writer =>
        cases hreturn
    | resume client' =>
        simp only [storeReturns] at hreturn
        cases hpc : s.clients client' with
        | storing endPos' =>
            simp only [hpc, Option.ite_none_right_eq_some, Option.some.injEq,
              Prod.mk.injEq] at hreturn
            obtain ⟨hle, rfl, rfl⟩ := hreturn
            obtain ⟨c, hlast, rfl⟩ := h.waiting client' endPos' hpc
            exact ⟨c, hlast, rfl, h.slice hbuffers hposition (mem_of_lastCall hlast) hle⟩
        | _ =>
            simp [hpc] at hreturn

end Wal
end LsmStore
