import LsmStore.Wal.Status

/-!
# What `sync` makes durable

A page file has a durable part, which grows when `sync_data` is called on a
handle of that file.  `sync` is meant to return only after everything written
before the call is durable.

`write_all` replaces the handle as soon as a page is full, and `sync_data` is
called on the current handle only.  So the promise is kept while the log is
shorter than one page.  The last bytes of the first page never become durable,
and hence no `sync` of a longer log keeps it.
-/

namespace LsmStore
namespace Wal

open PagedStream

/-- The `write_pos` that a call of `sync` has read, if the event makes that call return. -/
def syncReturns (s : LogState) : Event → Option Nat
  | .call client .sync =>
      if s.clients client = .idle ∧ s.status.syncPos = s.status.writePos then
        some s.status.writePos
      else none
  | .resume client =>
      match s.clients client with
      | .syncing lastPos writePos =>
          if lastPos < s.status.syncPos then some writePos else none
      | _ => none
  | _ => none

/-- Every byte below the position is in the durable part of its page file. -/
def DurableBelow (s : LogState) (position : Nat) : Prop :=
  ∀ q, q < position → q % pageSize < s.durable (q / pageSize)

/-- The handle of the writer is the last page file, which ends at the position. -/
theorem LogInv.handle
    {s : LogState}
    (h : LogInv (WalWriter.new (fun _ => none)) s)
    (hoffset : s.status.offsetPos = 0) :
    s.writer.logFile.page = s.writer.position / pageSize ∧
    ∃ content, s.dir s.writer.logFile.page = some content ∧
      content.length = s.writer.position % pageSize := by
  obtain ⟨written, -, hwriter, hdir⟩ := h.buffers
  have hplaced := (placed_new (fun _ => none) (fun _ => rfl)).writeBuffers written
  rw [List.nil_append] at hplaced
  have hposition : s.writer.position = written.flatten.length := by
    rw [hwriter, hplaced.position]
  have hpage : s.writer.logFile.page = written.flatten.length / pageSize := by
    rw [hwriter, hplaced.file]
  refine ⟨by rw [hpage, hposition],
    written.flatten.drop (written.flatten.length / pageSize * pageSize), ?_, ?_⟩
  · rw [hpage, hdir _ (by rw [hoffset]; simp), hplaced.pages, page_last pageSize_pos]
  · rw [page_last_length, hposition]

/-- What holds in every state of a new log, as long as no offset is set. -/
structure DurableInv (s : LogState) : Prop where
  sync : SyncInv (WalWriter.new (fun _ => none)) s
  offset : s.status.offsetPos = 0
  /-- The first page file is never durable to its end. -/
  durable_lt : s.durable 0 < pageSize
  durable_ge : s.writer.position < pageSize → s.status.syncPos ≤ s.durable 0
  publishing : ∀ job, s.pc = .publishSync job → s.writer.position < pageSize →
    s.durable 0 = s.writer.position
  syncing : ∀ c lastPos writePos, s.clients c = .syncing lastPos writePos →
    writePos ≤ s.status.writePos ∧
    (s.status.syncPos = lastPos ∨ writePos ≤ s.status.syncPos)

/-- What `sync_data` does for the first page file. -/
theorem DurableInv.syncData_zero
    {s : LogState}
    (h : DurableInv s) :
    syncData s 0 < pageSize ∧
    (s.writer.position < pageSize → syncData s 0 = s.writer.position) := by
  obtain ⟨hpage, content, hcontent, hlen⟩ := h.sync.log.handle h.offset
  have hmod : s.writer.position % pageSize < pageSize := Nat.mod_lt _ pageSize_pos
  unfold syncData
  simp only [hcontent, Function.update_apply]
  by_cases hlt : s.writer.position < pageSize
  · have hzero : s.writer.logFile.page = 0 := by
      rw [hpage, Nat.div_eq_of_lt hlt]
    rw [if_pos hzero.symm, hlen, Nat.mod_eq_of_lt hlt]
    exact ⟨hlt, fun _ => rfl⟩
  · have hne : 0 ≠ s.writer.logFile.page := by
      rw [hpage]
      have hpos := Nat.div_pos (Nat.le_of_not_lt hlt) pageSize_pos
      omega
    rw [if_neg hne]
    exact ⟨h.durable_lt, fun hlt' => absurd hlt' hlt⟩

/-- A call that leaves the offset alone. -/
def Event.KeepsOffset : Event → Prop
  | .call _ (.setOffset _) => False
  | _ => True

theorem ClientStep.offsetPos
    {s s' : LogState} {e : Event}
    (h : ClientStep s e s')
    (hkeeps : e.KeepsOffset) :
    s'.status.offsetPos = s.status.offsetPos := by
  cases h with
  | setOffset =>
      exact hkeeps.elim
  | _ =>
      rfl

theorem DurableInv.clientStep
    {s s' : LogState} {e : Event}
    (h : DurableInv s)
    (hsync : SyncInv (WalWriter.new (fun _ => none)) s')
    (hstep : ClientStep s e s')
    (hkeeps : e.KeepsOffset) :
    DurableInv s' := by
  have hsame := hstep.sameWriter
  refine ⟨hsync, (hstep.offsetPos hkeeps).trans h.offset, ?_, ?_, ?_, ?_⟩
  · rw [hsame.durable]
    exact h.durable_lt
  · rw [hsame.durable, hsame.writer, hsame.syncPos]
    exact h.durable_ge
  · rw [hsame.pc, hsame.durable, hsame.writer]
    exact h.publishing
  · intro c lastPos writePos hc
    rw [hsame.writePos, hsame.syncPos]
    rcases hstep.reached c with hkept | hreached
    · exact h.syncing c lastPos writePos (hkept ▸ hc)
    · rw [hc] at hreached
      obtain ⟨hlast, hwrite, -⟩ := hreached
      exact ⟨le_of_eq hwrite, Or.inl hlast.symm⟩

/-- A step of the writer that syncs nothing and publishes no sync. -/
theorem DurableInv.of_pc
    {s s' : LogState}
    (h : DurableInv s)
    (hsync : SyncInv (WalWriter.new (fun _ => none)) s')
    (hclients : s'.clients = s.clients)
    (hdurable : s'.durable = s.durable)
    (hoffset : s'.status.offsetPos = s.status.offsetPos)
    (hsyncPos : s'.status.syncPos = s.status.syncPos)
    (hposition : s.writer.position ≤ s'.writer.position)
    (hwritePos : s.status.writePos ≤ s'.status.writePos)
    (hpc : ∀ job, s'.pc ≠ .publishSync job) :
    DurableInv s' where
  sync := hsync
  offset := hoffset.trans h.offset
  durable_lt := by
    rw [hdurable]
    exact h.durable_lt
  durable_ge := by
    intro hpage
    rw [hdurable, hsyncPos]
    exact h.durable_ge (lt_of_le_of_lt hposition hpage)
  publishing := fun job hjob => absurd hjob (hpc job)
  syncing := by
    intro c lastPos writePos hc
    obtain ⟨hle, hcases⟩ := h.syncing c lastPos writePos (hclients ▸ hc)
    rw [hsyncPos]
    exact ⟨le_trans hle hwritePos, hcases⟩

theorem DurableInv.writerStep
    {s s' : LogState}
    (h : DurableInv s)
    (hsync : SyncInv (WalWriter.new (fun _ => none)) s')
    (hstep : WriterStep s s') :
    DurableInv s' := by
  cases hstep with
  | stay =>
      exact h
  | write =>
      refine h.of_pc hsync rfl rfl rfl rfl ?_ le_rfl nofun
      rw [WalWriter.writeAll_position]
      exact Nat.le_add_right _ _
  | sync =>
      obtain ⟨hlt, hexact⟩ := h.syncData_zero
      refine ⟨hsync, h.offset, hlt, fun hpage => ?_, fun _ _ => hexact, h.syncing⟩
      exact le_trans h.sync.syncPos_le (hexact hpage).ge
  | publishSync hpc =>
      refine ⟨hsync, h.offset, h.durable_lt, fun hpage => (h.publishing _ hpc hpage).ge,
        fun job hjob => absurd hjob (afterSync_ne_publishSync _ job), ?_⟩
      intro c lastPos writePos hc
      have hle := (h.syncing c lastPos writePos hc).1
      exact ⟨hle, Or.inr (le_trans hle h.sync.log.writePos_le)⟩
  | skipSync =>
      exact h.of_pc hsync rfl rfl rfl rfl le_rfl le_rfl (afterSync_ne_publishSync _)
  | @publish job _ hle =>
      refine h.of_pc hsync rfl rfl rfl rfl le_rfl hle ?_
      dsimp only
      cases job.stopFlag <;> nofun
  | take | remove | failRemove | removed =>
      exact h.of_pc hsync rfl rfl rfl rfl le_rfl le_rfl nofun

theorem DurableInv.step
    {s : LogState}
    (h : DurableInv s)
    (event : Event)
    (hkeeps : event.KeepsOffset) :
    DurableInv (step s event) := by
  have hsync := h.sync.step event
  by_cases hevent : event = .writer
  · rw [hevent] at hsync ⊢
    exact h.writerStep hsync h.sync.log.writerStep_cases
  · exact h.clientStep hsync (clientStep_step s hevent) hkeeps

theorem durableInv_run
    {events : List Event}
    (hkeeps : ∀ e ∈ events, e.KeepsOffset) :
    DurableInv (LogState.new.run events) := by
  have hstart : DurableInv LogState.new :=
    ⟨⟨logInv_start _ _, le_refl _⟩, rfl, pageSize_pos, fun _ => le_refl _,
      by simp [LogState.new, LogState.start], by simp [LogState.new, LogState.start]⟩
  exact Runs.invariant_along (fun s e hc hs => hs.step e hc) hstart
    (Runs.along_of_forall (fun e he _ => hkeeps e he) _)

/-- A `sync` that returns has read a `write_pos` up to which the log was synced. -/
theorem DurableInv.syncReturns_le
    {s : LogState}
    (h : DurableInv s)
    {event : Event} {writePos : Nat}
    (hreturn : syncReturns s event = some writePos) :
    writePos ≤ s.status.syncPos := by
  cases event with
  | writer =>
      cases hreturn
  | resume client =>
      simp only [syncReturns] at hreturn
      cases hclient : s.clients client with
      | syncing lastPos writePos' =>
          obtain ⟨-, hcases⟩ := h.syncing client lastPos writePos' hclient
          simp only [hclient, Option.ite_none_right_eq_some, Option.some.injEq] at hreturn
          omega
      | _ =>
          simp [hclient] at hreturn
  | call client call =>
      cases call with
      | sync =>
          simp only [syncReturns, Option.ite_none_right_eq_some, Option.some.injEq] at hreturn
          omega
      | _ =>
          cases hreturn

/-- The last byte of the first page is never durable. -/
theorem DurableInv.not_durableBelow
    {s : LogState}
    (h : DurableInv s)
    {position : Nat}
    (hpage : pageSize ≤ position) :
    ¬ DurableBelow s position := by
  intro hdurable
  have hpos := pageSize_pos
  have hlast := hdurable (pageSize - 1) (by omega)
  have hlt := h.durable_lt
  rw [Nat.mod_eq_of_lt (by omega), Nat.div_eq_of_lt (by omega)] at hlast
  omega

/-- **What a returned `sync` guarantees.**  As long as the log is shorter than one page,
every byte below the `write_pos` that the call has read is durable when it returns.  If that
`write_pos` is at least one page, they are not all durable. -/
theorem sync_durable_of_first_page
    (events : List Event) (event : Event) (writePos : Nat)
    (hkeeps : ∀ e ∈ events, e.KeepsOffset)
    (hreturn : syncReturns (LogState.new.run events) event = some writePos) :
    ((LogState.new.run events).writer.position < pageSize →
      DurableBelow (LogState.new.run events) writePos) ∧
    (pageSize ≤ writePos → ¬ DurableBelow (LogState.new.run events) writePos) := by
  have h := durableInv_run hkeeps
  have hsynced := h.syncReturns_le hreturn
  refine ⟨?_, fun hpage => h.not_durableBelow hpage⟩
  intro hpage q hq
  have hposition := h.sync.syncPos_le
  have hge := h.durable_ge hpage
  rw [Nat.mod_eq_of_lt (by omega), Nat.div_eq_of_lt (by omega)]
  omega

/-- A record is stored and synced; the event that follows is the return of `sync`. -/
def storeAndSync (op : WriteOp) : List Event :=
  storeOne op ++ [.call 0 .sync, .writer, .writer, .writer, .writer]

/-- The log is shorter than a page, and so the record is durable when `sync` returns. -/
theorem sync_durable_short_put :
    syncReturns (LogState.new.run (storeAndSync shortPut)) (.resume 0) = some 20 ∧
    DurableBelow (LogState.new.run (storeAndSync shortPut)) 20 :=
  ⟨by decide +kernel,
    (sync_durable_of_first_page (storeAndSync shortPut) (.resume 0) 20
      (by simp [storeAndSync, storeOne, Event.KeepsOffset]) (by decide +kernel)).1
      (by decide +kernel)⟩

/-- A put whose record is longer than a page. -/
def longPut : WriteOp :=
  .put (ByteVec.ofList [1]) (ByteVec.ofList (List.replicate 4096 0))

/-- After a record that crosses a page boundary, `sync` returns although the first byte of
the log is not durable. -/
theorem sync_returns_before_durable :
    syncReturns (LogState.new.run (storeAndSync longPut)) (.resume 0) = some 4115 ∧
    (LogState.new.run (storeAndSync longPut)).durable 0 = 0 ∧
    ¬ DurableBelow (LogState.new.run (storeAndSync longPut)) 4115 := by
  have hzero : (LogState.new.run (storeAndSync longPut)).durable 0 = 0 := by
    decide +kernel
  refine ⟨by decide +kernel, hzero, ?_⟩
  intro hdurable
  have hfirst := hdurable 0 (by decide)
  simp only [Nat.zero_mod, Nat.zero_div, hzero] at hfirst
  exact absurd hfirst (lt_irrefl _)

end Wal
end LsmStore
