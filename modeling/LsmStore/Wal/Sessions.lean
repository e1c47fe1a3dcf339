import Mathlib.Algebra.BigOperators.Group.Finset.Basic
import LsmStore.Wal.Recovery

/-!
# Writing to a log that was reopened

A log is used in sessions.  The first one creates it; every later one recovers
it from position 0, starts its writer with `continue_from` at the position
recovery ended at, and stores further operations.

`continue_from` opens the last page file, and the cursor of the new handle
stands at the start of that file, not at its end.  So the first bytes a
reopened log writes go over bytes that are there already.  The proof counts
bytes: a session never adds more bytes to the page files than it writes, and
one that writes over existing bytes adds fewer, so from then on the page files
are too short to hold the stream.
-/

namespace LsmStore
namespace Wal

open PagedStream

/-- Everything that was stored has been written, and no page file was given up. -/
def LogState.Settled (s : LogState) : Prop :=
  s.status.writePos = s.status.queuePos ∧ s.status.offsetPos = 0

instance (s : LogState) : Decidable s.Settled :=
  inferInstanceAs (Decidable (_ ∧ _))

/-- The operations of each session so far, and the page files they leave. -/
inductive Sessions : List (List WriteOp) → LogDir → Prop
  | first
      (events : List Event)
      (hsettled : (LogState.new.run events).Settled) :
      Sessions [(LogState.new.run events).stored] (LogState.new.run events).dir
  | reopen
      {sessions : List (List WriteOp)} {dir : LogDir}
      (earlier : Sessions sessions dir)
      (memtable memtable' : Memtable) (result : RecoveryResult)
      (hrecovers : Recovers dir 0 memtable (.value (result, memtable')))
      (origin : LogDir × WalWriter)
      (hopen : WalWriter.continueFrom dir result.newPosition = .value origin)
      (events : List Event)
      (hsettled : ((LogState.start origin 0).run events).Settled) :
      Sessions (sessions ++ [((LogState.start origin 0).run events).stored])
        ((LogState.start origin 0).run events).dir

/-- The page files after a session are what its writer made of the operations. -/
theorem settled_dir
    (origin : LogDir × WalWriter) (events : List Event)
    (h : ((LogState.start origin 0).run events).Settled) :
    ((LogState.start origin 0).run events).dir =
      (WalWriter.writeBuffers origin.1 origin.2
        (((LogState.start origin 0).run events).stored.map encodeEntry)).1 := by
  have hinv := logInv_run origin 0 events
  obtain ⟨written, hbuffers, -, hdir⟩ := hinv.buffers
  rw [List.append_assoc, hinv.all_written h.1, List.append_nil] at hbuffers
  funext i
  rw [hbuffers]
  exact hdir i (by rw [h.2]; simp)

/-- Number of bytes in the first `n` page files. -/
def byteCount (dir : LogDir) (n : Nat) : Nat :=
  ∑ i ∈ Finset.range n, ((dir i).getD []).length

/-- Page files that hold a stream have as many bytes as the stream. -/
theorem byteCount_pages
    {dir : LogDir} {t : List UInt8}
    (h : ∀ i, dir i = page pageSize t i)
    (n : Nat) :
    byteCount dir n = min (n * pageSize) t.length := by
  induction n with
  | zero =>
      simp [byteCount]
  | succ n ih =>
      have hlen : ((dir n).getD []).length = min pageSize (t.length - n * pageSize) := by
        rw [h n]
        unfold page
        split
        · simp
        · simp only [Option.getD_none, List.length_nil]
          omega
      unfold byteCount at ih ⊢
      rw [Finset.sum_range_succ, ih, hlen, Nat.succ_mul]
      omega

/-- The cursor of the handle is not behind the end of its file. -/
def CursorInFile (dir : LogDir) (w : WalWriter) : Prop :=
  ∀ content, dir w.logFile.page = some content → w.logFile.cursor ≤ content.length

/-- Replacing one page file changes the count by the difference of the two lengths. -/
theorem byteCount_update
    (dir : LogDir) (n i : Nat) (content : Option (List UInt8)) :
    byteCount (Function.update dir i content) n +
        (if i < n then ((dir i).getD []).length else 0) =
      byteCount dir n + (if i < n then (content.getD []).length else 0) := by
  induction n with
  | zero =>
      simp [byteCount]
  | succ n ih =>
      unfold byteCount at ih ⊢
      rw [Finset.sum_range_succ, Finset.sum_range_succ, Function.update_apply]
      by_cases hi : i = n
      · subst hi
        simp only [lt_irrefl, if_false, Nat.lt_succ_self, if_true] at ih ⊢
        omega
      · rw [if_neg (Ne.symm hi)]
        by_cases hlt : i < n
        · rw [if_pos hlt, if_pos hlt] at ih
          rw [if_pos (by omega), if_pos (by omega)]
          omega
        · rw [if_neg hlt, if_neg hlt] at ih
          rw [if_neg (by omega), if_neg (by omega)]
          omega

/-- A write at the cursor adds at most its bytes, and fewer if it goes over old ones. -/
theorem byteCount_fileWriteAll
    {dir : LogDir} {w : WalWriter}
    (h : CursorInFile dir w)
    (data : List UInt8) (n : Nat) :
    byteCount (w.logFile.writeAll dir data).1 n ≤ byteCount dir n + data.length ∧
    (∀ content, dir w.logFile.page = some content → w.logFile.cursor < content.length →
      data ≠ [] →
      byteCount (w.logFile.writeAll dir data).1 n < byteCount dir n + data.length) := by
  have hupdate := byteCount_update dir n w.logFile.page
    ((dir w.logFile.page).map (fun content => overwrite content w.logFile.cursor data))
  have hdata : data ≠ [] → 0 < data.length := List.length_pos_iff.mpr
  unfold LogFile.writeAll
  cases hpage : dir w.logFile.page with
  | none =>
      rw [hpage] at hupdate
      simp only [Option.map_none, Option.getD_none, List.length_nil] at hupdate ⊢
      exact ⟨by split at hupdate <;> omega, fun content hcontent => by cases hcontent⟩
  | some content =>
      have hlen := overwrite_length content w.logFile.cursor data
      rw [hpage] at hupdate
      simp only [Option.map_some, Option.getD_some, hlen] at hupdate ⊢
      have hle := h content hpage
      refine ⟨by split at hupdate <;> omega, ?_⟩
      intro content' hcontent hlt hne
      cases hcontent
      have hpos := hdata hne
      split at hupdate <;> omega

theorem cursorInFile_fileWriteAll
    (dir : LogDir) (w : WalWriter) (data : List UInt8) (position : Nat) :
    CursorInFile (w.logFile.writeAll dir data).1
      { logFile := (w.logFile.writeAll dir data).2, position := position } := by
  intro content hcontent
  simp only [LogFile.writeAll, Function.update_self] at hcontent ⊢
  cases hpage : dir w.logFile.page with
  | none =>
      rw [hpage] at hcontent
      cases hcontent
  | some old =>
      rw [hpage] at hcontent
      cases hcontent
      rw [overwrite_length]
      exact le_max_right _ _

/-- A new page file is empty. -/
theorem byteCount_createFile_le
    (dir : LogDir) (filePos n : Nat) :
    byteCount (createFile dir filePos).1 n ≤ byteCount dir n := by
  have hupdate := byteCount_update dir n filePos (some [])
  simp only [Option.getD_some, List.length_nil] at hupdate
  simp only [createFile]
  split at hupdate <;> omega

theorem cursorInFile_createFile
    (dir : LogDir) (filePos position : Nat) :
    CursorInFile (createFile dir filePos).1
      { logFile := (createFile dir filePos).2, position := position } :=
  fun _ _ => Nat.zero_le _

theorem byteCount_writeChunk
    {dir : LogDir} {w : WalWriter}
    (h : CursorInFile dir w)
    (data : List UInt8) :
    CursorInFile (w.writeChunk dir data).1 (w.writeChunk dir data).2 ∧
    ∀ n,
      byteCount (w.writeChunk dir data).1 n ≤ byteCount dir n + w.writeLen data ∧
      (∀ content, dir w.logFile.page = some content → w.logFile.cursor < content.length →
        data ≠ [] →
        byteCount (w.writeChunk dir data).1 n < byteCount dir n + w.writeLen data) := by
  have hlen : (data.take (w.writeLen data)).length = w.writeLen data := by
    rw [List.length_take]
    exact min_eq_left (min_le_left _ _)
  have hne : data ≠ [] → data.take (w.writeLen data) ≠ [] := by
    intro hdata htake
    have hpos := w.writeLen_pos hdata
    rw [htake, List.length_nil] at hlen
    omega
  have hcount := byteCount_fileWriteAll h (data.take (w.writeLen data))
  simp only [hlen] at hcount
  unfold WalWriter.writeChunk
  simp only
  split
  · refine ⟨cursorInFile_createFile _ _ _, fun n => ⟨?_, ?_⟩⟩
    · exact le_trans (byteCount_createFile_le _ _ n) (hcount n).1
    · intro content hcontent hlt hdata
      exact lt_of_le_of_lt (byteCount_createFile_le _ _ n)
        ((hcount n).2 content hcontent hlt (hne hdata))
  · exact ⟨cursorInFile_fileWriteAll _ _ _ _,
      fun n => ⟨(hcount n).1, fun content hcontent hlt hdata =>
        (hcount n).2 content hcontent hlt (hne hdata)⟩⟩

theorem byteCount_writeLoop
    (fuel : Nat)
    {dir : LogDir} {w : WalWriter}
    (h : CursorInFile dir w)
    (data : List UInt8) :
    CursorInFile (WalWriter.writeLoop fuel dir w data).1
      (WalWriter.writeLoop fuel dir w data).2 ∧
    ∀ n, byteCount (WalWriter.writeLoop fuel dir w data).1 n ≤
      byteCount dir n + data.length := by
  induction fuel generalizing dir w data with
  | zero =>
      exact ⟨h, fun n => Nat.le_add_right _ _⟩
  | succ fuel ih =>
      by_cases hdata : data = []
      · simp only [WalWriter.writeLoop, if_pos hdata]
        exact ⟨h, fun n => Nat.le_add_right _ _⟩
      · obtain ⟨hcursor, hcount⟩ := byteCount_writeChunk h data
        obtain ⟨hcursor', hcount'⟩ := ih hcursor (data.drop (w.writeLen data))
        have hle : w.writeLen data ≤ data.length := min_le_left _ _
        simp only [WalWriter.writeLoop, if_neg hdata]
        refine ⟨hcursor', fun n => ?_⟩
        have hfirst := (hcount n).1
        have hrest := hcount' n
        rw [List.length_drop] at hrest
        omega

theorem byteCount_writeAll
    {dir : LogDir} {w : WalWriter}
    (h : CursorInFile dir w)
    (data : List UInt8) :
    CursorInFile (w.writeAll dir data).1 (w.writeAll dir data).2 ∧
    ∀ n, byteCount (w.writeAll dir data).1 n ≤ byteCount dir n + data.length :=
  byteCount_writeLoop data.length h data

/-- **A session adds at most the bytes it writes.** -/
theorem byteCount_writeBuffers
    {dir : LogDir} {w : WalWriter}
    (h : CursorInFile dir w)
    (bufs : List (List UInt8)) (n : Nat) :
    byteCount (w.writeBuffers dir bufs).1 n ≤ byteCount dir n + bufs.flatten.length := by
  induction bufs generalizing dir w with
  | nil =>
      exact Nat.le_add_right _ _
  | cons buf bufs ih =>
      obtain ⟨hcursor, hcount⟩ := byteCount_writeAll h buf
      have hfirst := hcount n
      have hrest := ih hcursor
      rw [List.flatten_cons, List.length_append]
      exact le_trans hrest (by omega)

/-- A session whose first byte goes over an old one adds fewer. -/
theorem byteCount_writeBuffers_lt
    {dir : LogDir} {w : WalWriter} {content : List UInt8}
    (h : CursorInFile dir w)
    (hcontent : dir w.logFile.page = some content)
    (hlt : w.logFile.cursor < content.length)
    {buf : List UInt8}
    (hbuf : buf ≠ [])
    (bufs : List (List UInt8)) (n : Nat) :
    byteCount (w.writeBuffers dir (buf :: bufs)).1 n <
      byteCount dir n + (buf :: bufs).flatten.length := by
  have hpos : 0 < buf.length := List.length_pos_iff.mpr hbuf
  obtain ⟨fuel, hfuel⟩ : ∃ fuel, buf.length = fuel + 1 := ⟨buf.length - 1, by omega⟩
  obtain ⟨hcursor, hcount⟩ := byteCount_writeChunk h buf
  have hle : w.writeLen buf ≤ buf.length := min_le_left _ _
  have hall : w.writeAll dir buf =
      WalWriter.writeLoop fuel (w.writeChunk dir buf).1 (w.writeChunk dir buf).2
        (buf.drop (w.writeLen buf)) := by
    rw [WalWriter.writeAll, hfuel]
    simp [WalWriter.writeLoop, hbuf]
  obtain ⟨hcursor', hcount'⟩ :=
    byteCount_writeLoop fuel hcursor (buf.drop (w.writeLen buf))
  rw [← hall] at hcursor' hcount'
  have hfirst := (hcount n).2 content hcontent hlt hbuf
  have hrest := hcount' n
  rw [List.length_drop] at hrest
  have hbufs := byteCount_writeBuffers hcursor' bufs n
  rw [List.flatten_cons, List.length_append]
  exact lt_of_le_of_lt hbufs (by omega)

/-- The writer of a reopened log starts inside its file and has added nothing. -/
theorem continueFrom_start
    {dir : LogDir} {position : Nat} {origin : LogDir × WalWriter}
    (h : WalWriter.continueFrom dir position = .value origin) :
    CursorInFile origin.1 origin.2 ∧ ∀ n, byteCount origin.1 n ≤ byteCount dir n := by
  unfold WalWriter.continueFrom at h
  dsimp only at h
  split_ifs at h
  · cases h
    exact ⟨cursorInFile_createFile _ _ _, byteCount_createFile_le _ _⟩
  · cases hfile : openFile dir (position / pageSize) with
    | none =>
        rw [hfile] at h
        cases h
    | some logFile =>
        rw [hfile] at h
        cases h
        refine ⟨?_, fun n => le_refl _⟩
        intro content _
        obtain ⟨old, -, hcursor⟩ := Option.map_eq_some_iff.mp hfile
        simp [← hcursor]

/-- Inside a page, the page file is opened as it is, with the cursor at its start. -/
theorem continueFrom_of_mod_ne_zero
    {dir : LogDir} {position : Nat} {origin : LogDir × WalWriter}
    (hmod : position % pageSize ≠ 0)
    (h : WalWriter.continueFrom dir position = .value origin) :
    origin.1 = dir ∧ origin.2.logFile = { page := position / pageSize, cursor := 0 } := by
  unfold WalWriter.continueFrom at h
  simp only [if_neg hmod] at h
  cases hfile : openFile dir (position / pageSize) with
  | none =>
      rw [hfile] at h
      cases h
  | some logFile =>
      rw [hfile] at h
      cases h
      obtain ⟨old, -, hcursor⟩ := Option.map_eq_some_iff.mp hfile
      exact ⟨rfl, hcursor.symm⟩

theorem Sessions.ne_nil
    {sessions : List (List WriteOp)} {dir : LogDir}
    (h : Sessions sessions dir) :
    sessions ≠ [] := by
  cases h <;> simp

/-- Recovery of intact page files that returns has read all of them. -/
theorem recovers_intact
    {dir : LogDir} {ops : List WriteOp}
    {memtable memtable' : Memtable} {result : RecoveryResult}
    (hdir : ∀ i, dir i = page pageSize (encode ops) i)
    (h : Recovers dir 0 memtable (.value (result, memtable'))) :
    result.newPosition = (encode ops).length ∧ (encode ops).length % pageSize ≠ 0 := by
  have hrecovers := recovers_encode (fun i _ => hdir i) ops (Nat.zero_le _) rfl memtable
  have hvalue := hrecovers.unique h
  have hresult := replay_value hvalue
  rw [hresult] at hvalue
  refine ⟨?_, ((replay_eq_value_iff _ _ _).mp hvalue).1⟩
  rw [(Prod.mk.inj hresult).1]

/-- A session that writes to an intact log leaves too few bytes. -/
theorem reopen_intact
    {dir : LogDir} {ops : List WriteOp}
    (hdir : ∀ i, dir i = page pageSize (encode ops) i)
    (hmod : (encode ops).length % pageSize ≠ 0)
    {origin : LogDir × WalWriter}
    (hopen : WalWriter.continueFrom dir (encode ops).length = .value origin)
    (op : WriteOp) (more : List WriteOp) (n : Nat) :
    byteCount (origin.2.writeBuffers origin.1 ((op :: more).map encodeEntry)).1 n <
      (encode (ops ++ op :: more)).length := by
  obtain ⟨hsame, hfile⟩ := continueFrom_of_mod_ne_zero hmod hopen
  have hpage : origin.1 origin.2.logFile.page =
      some ((encode ops).drop ((encode ops).length / pageSize * pageSize)) := by
    rw [hsame, hfile, hdir, page_last pageSize_pos]
  have hlen := page_last_length (P := pageSize) (encode ops)
  have hlt := byteCount_writeBuffers_lt (continueFrom_start hopen).1 hpage
    (by rw [hfile, hlen]; exact Nat.pos_of_ne_zero hmod) (encodeEntry_ne_nil op)
    (more.map encodeEntry) n
  have hcount := byteCount_pages hdir n
  have hbytes : (encode (ops ++ op :: more)).length =
      (encode ops).length + (encodeEntry op :: more.map encodeEntry).flatten.length := by
    rw [encode_append, List.length_append]
    rfl
  rw [hsame, hcount, ← hsame] at hlt
  rw [List.map_cons, hbytes]
  omega

/-- Either no later session has written anything and the log is intact, or one has and
bytes are missing. -/
theorem Sessions.intact_or_short
    {sessions : List (List WriteOp)} {dir : LogDir}
    (h : Sessions sessions dir) :
    ((∀ ops ∈ sessions.tail, ops = []) ∧
      ∀ i, dir i = page pageSize (encode sessions.flatten) i) ∨
    ((∃ ops ∈ sessions.tail, ops ≠ []) ∧
      ∀ n, byteCount dir n < (encode sessions.flatten).length) := by
  induction h with
  | first events hsettled =>
      left
      obtain ⟨ops, rest, hstored, -, hdir, hrest⟩ := new_run_files events
      rw [hrest hsettled.1, List.append_nil] at hstored
      refine ⟨by simp, ?_⟩
      intro i
      rw [hdir i (by rw [hsettled.2]; simp), List.flatten_singleton, hstored]
  | @reopen sessions dir earlier memtable memtable' result hrecovers origin hopen events
      hsettled ih =>
      have htail : (sessions ++ [((LogState.start origin 0).run events).stored]).tail =
          sessions.tail ++ [((LogState.start origin 0).run events).stored] :=
        List.tail_append_of_ne_nil earlier.ne_nil
      have hfinal := settled_dir origin events hsettled
      rw [htail, hfinal, List.flatten_append, List.flatten_singleton]
      generalize ((LogState.start origin 0).run events).stored = ops
      rcases ih with ⟨hempty, hdir⟩ | ⟨⟨later, hlater, hne⟩, hshort⟩
      · obtain ⟨hposition, hmod⟩ := recovers_intact hdir hrecovers
        rw [hposition] at hopen
        cases ops with
        | nil =>
            left
            obtain ⟨hsame, -⟩ := continueFrom_of_mod_ne_zero hmod hopen
            refine ⟨?_, ?_⟩
            · intro ops hops
              rcases List.mem_append.mp hops with hops | hops
              · exact hempty ops hops
              · exact List.mem_singleton.mp hops
            · intro i
              rw [List.append_nil]
              exact (congrFun hsame i).trans (hdir i)
        | cons op more =>
            right
            exact ⟨⟨op :: more, by simp, by simp⟩, reopen_intact hdir hmod hopen op more⟩
      · right
        refine ⟨⟨later, List.mem_append_left _ hlater, hne⟩, ?_⟩
        intro n
        obtain ⟨hcursor, hstart⟩ := continueFrom_start hopen
        have hcount := byteCount_writeBuffers hcursor (ops.map encodeEntry) n
        have hfirst := hstart n
        have hold := hshort n
        rw [encode_append, List.length_append]
        exact lt_of_le_of_lt hcount (by
          have hencode : encode ops = (ops.map encodeEntry).flatten := rfl
          rw [hencode]
          omega)

/-- **Writing after a reopen.**  After any number of sessions, the page files hold the
records of all of them and recovery from position 0 replays them, if and only if no session
but the first one has stored anything, the log does not end on a page boundary, and no
operation has an empty key or value. -/
theorem sessions_keep_log_iff
    {sessions : List (List WriteOp)} {dir : LogDir}
    (h : Sessions sessions dir) :
    ((∀ i, dir i = page pageSize (encode sessions.flatten) i) ∧
      ∀ memtable, ∃ result,
        Recovers dir 0 memtable (.value (result, memtable.applyAll sessions.flatten))) ↔
      (∀ ops ∈ sessions.tail, ops = []) ∧
      (encode sessions.flatten).length % pageSize ≠ 0 ∧
      ∀ op ∈ sessions.flatten, op.hasEmptyField = false := by
  constructor
  · rintro ⟨hdir, hreplay⟩
    have hempty : ∀ ops ∈ sessions.tail, ops = [] := by
      rcases h.intact_or_short with ⟨hempty, -⟩ | ⟨-, hshort⟩
      · exact hempty
      · have hlt := hshort (encode sessions.flatten).length
        rw [byteCount_pages hdir] at hlt
        have hle : (encode sessions.flatten).length ≤
            (encode sessions.flatten).length * pageSize :=
          Nat.le_mul_of_pos_right _ pageSize_pos
        omega
    obtain ⟨result, hresult⟩ := hreplay (Memtable.new 1)
    have hrecovers := recovers_encode (fun i _ => hdir i) sessions.flatten (Nat.zero_le _) rfl
      (Memtable.new 1)
    have hvalue := hrecovers.unique hresult
    rw [replay_value hvalue] at hvalue
    exact ⟨hempty, (replay_eq_value_iff _ _ _).mp hvalue⟩
  · rintro ⟨hempty, hcond⟩
    have hdir : ∀ i, dir i = page pageSize (encode sessions.flatten) i := by
      rcases h.intact_or_short with ⟨-, hdir⟩ | ⟨⟨ops, hops, hne⟩, -⟩
      · exact hdir
      · exact absurd (hempty ops hops) hne
    refine ⟨hdir, fun memtable => ?_⟩
    have hrecovers := recovers_encode (fun i _ => hdir i) sessions.flatten (Nat.zero_le _) rfl
      memtable
    have hvalue := (replay_eq_value_iff _ _ memtable).mpr hcond
    exact ⟨_, hvalue ▸ hrecovers⟩

/-- The writer that continues the log of one short put. -/
def secondWriter : WalWriter where
  logFile := { page := 0, cursor := 0 }
  position := 20

/-- A second session that only calls `sync`. -/
def idleSession : LogState :=
  (LogState.start ((LogState.new.run (storeOne shortPut)).dir, secondWriter) 0).run
    [.call 0 .sync, .writer]

theorem sessions_keep_log_idle :
    Sessions [[shortPut], []] idleSession.dir ∧
    (∀ i, idleSession.dir i = page pageSize (encode [shortPut]) i) ∧
    ∀ memtable, ∃ result,
      Recovers idleSession.dir 0 memtable (.value (result, memtable.applyAll [shortPut])) := by
  have hfirst : Sessions [[shortPut]] (LogState.new.run (storeOne shortPut)).dir :=
    Sessions.first (storeOne shortPut) (by decide +kernel)
  have hsecond : Sessions [[shortPut], []] idleSession.dir :=
    Sessions.reopen hfirst (Memtable.new 1) ((Memtable.new 1).apply shortPut)
      { newPosition := 20, entriesRecovered := 1 }
      (recovers_of_recover 21 (by decide +kernel) (by simp))
      ((LogState.new.run (storeOne shortPut)).dir, secondWriter) rfl
      [.call 0 .sync, .writer] (by decide +kernel)
  exact ⟨hsecond, (sessions_keep_log_iff hsecond).mpr
    ⟨by simp, by decide +kernel, by decide +kernel⟩⟩

/-- The second session after one that stored a short put. -/
def secondSession : LogState :=
  (LogState.start ((LogState.new.run (storeOne shortPut)).dir, secondWriter) 0).run
    (storeOne otherPut)

/-- Two sessions that store one put each: the put of the first one is gone. -/
theorem second_session_overwrites_first :
    Sessions [[shortPut], [otherPut]] secondSession.dir ∧
    secondSession.dir 0 = some (encode [otherPut]) ∧
    (¬ ∀ i, secondSession.dir i = page pageSize (encode [shortPut, otherPut]) i) ∧
    Recovers secondSession.dir 0 (Memtable.new 1)
      (.value ({ newPosition := 20, entriesRecovered := 1 },
        (Memtable.new 1).applyAll [otherPut])) := by
  have hfirst : Sessions [[shortPut]] (LogState.new.run (storeOne shortPut)).dir :=
    Sessions.first (storeOne shortPut) (by decide +kernel)
  have hsecond : Sessions [[shortPut], [otherPut]] secondSession.dir :=
    Sessions.reopen hfirst (Memtable.new 1) ((Memtable.new 1).apply shortPut)
      { newPosition := 20, entriesRecovered := 1 }
      (recovers_of_recover 21 (by decide +kernel) (by simp))
      ((LogState.new.run (storeOne shortPut)).dir, secondWriter) rfl
      (storeOne otherPut) (by decide +kernel)
  have hpage : secondSession.dir 0 = some (encode [otherPut]) := by
    decide +kernel
  refine ⟨hsecond, hpage, ?_, recovers_of_recover 21 (by decide +kernel) (by simp)⟩
  intro hall
  have hzero := hall 0
  rw [hpage] at hzero
  exact absurd hzero (by decide +kernel)

end Wal
end LsmStore
