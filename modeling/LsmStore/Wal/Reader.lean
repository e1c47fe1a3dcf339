import LsmStore.Wal.Format
import LsmStore.Lib.PagedStream
import LsmStore.Memtable

/-!
# The reader of the write-ahead log

During recovery the reader loads one page file after another and replays the
records into a memtable.  Both loops of the source, the one that fills a
buffer and the one over the records, take a fuel argument; a call that runs
out of fuel is `unfinished`.  `Recovers` speaks of the outcome for every large
enough fuel, so `unfinished` there means that the source never returns.

The page files enter the proofs only through `readFromLog_spec`: on page files
that hold a byte stream, the reader behaves like a cursor into that stream.
-/

namespace LsmStore
namespace Wal

open PagedStream

/-- Reader used during recovery. -/
structure WalReader where
  position : Nat
  currentPage : List UInt8
deriving DecidableEq

structure RecoveryResult where
  newPosition : Nat
  entriesRecovered : Nat
deriving DecidableEq

/-- Result of one round of a loop: go on, or leave the function. -/
inductive Round (σ ρ : Type) where
  | again (state : σ)
  | done (outcome : Outcome ρ)

/-- What is not filled of a buffer keeps the zeros it was created with. -/
def zeroPadded (bufferLen : Nat) (out : List UInt8) : List UInt8 :=
  out ++ List.replicate (bufferLen - out.length) 0

namespace WalReader

/-- Load the page file the start position lies in. -/
def new (dir : LogDir) (startPosition : Nat) : Outcome WalReader :=
  match dir (startPosition / pageSize) with
  | some currentPage => .value { position := startPosition, currentPage := currentPage }
  | none => .error (.io "Failed to open WAL file" notFound)

/-- One round of the loop in `read_from_log`; `out` is the filled part of the buffer. -/
def readRound (dir : LogDir) (isMaybe : Bool) (bufferLen : Nat)
    (r : WalReader) (out : List UInt8) :
    Round (WalReader × List UInt8) (Bool × List UInt8 × WalReader) :=
  let offset := r.position % pageSize
  if r.currentPage.length < offset then
    .done (.panic "Invalid offset. Page too small?")
  else
    let len := min (bufferLen - out.length) (r.currentPage.length - offset)
    let out' := out ++ (r.currentPage.drop offset).take len
    let r' : WalReader := { r with position := r.position + len }
    if len = 0 ∧ offset ≠ 0 then
      if r.currentPage.length < pageSize then
        .done (.value (false, zeroPadded bufferLen out, r))
      else
        .done (.panic "assertion failed: self.current_page.len() < PAGE_SIZE")
    else if r'.position % pageSize = 0 then
      match dir (r'.position / pageSize) with
      | some data => .again ({ r' with currentPage := data }, out')
      | none =>
          if isMaybe then .done (.value (false, zeroPadded bufferLen out', r'))
          else .done (.error (.io "Failed to open WAL file" notFound))
    else
      .again (r', out')

/-- The loop in `read_from_log`. -/
def readLoop (dir : LogDir) (isMaybe : Bool) (bufferLen : Nat) :
    Nat → WalReader → List UInt8 → Outcome (Bool × List UInt8 × WalReader)
  | 0, _, _ => .unfinished
  | fuel + 1, r, out =>
      if bufferLen ≤ out.length then .value (true, out, r)
      else
        match readRound dir isMaybe bufferLen r out with
        | .again st => readLoop dir isMaybe bufferLen fuel st.1 st.2
        | .done outcome => outcome

/-- Fill a buffer from the log; the flag tells whether all of it was filled. -/
def readFromLog (dir : LogDir) (fuel : Nat) (r : WalReader) (bufferLen : Nat)
    (isMaybe : Bool) : Outcome (Bool × List UInt8 × WalReader) :=
  if bufferLen = 0 then .panic "assertion failed: buffer_len > 0"
  else readLoop dir isMaybe bufferLen fuel r []

/-- `vec![0; n]` and a read into it; the flag of the read is dropped. -/
def readVec (dir : LogDir) (fuel : Nat) (r : WalReader) (n : Nat) :
    Outcome (ByteVec × WalReader) :=
  if 2 ^ 63 ≤ n then .panic "capacity overflow"
  else do
    let read ← r.readFromLog dir fuel n false
    return (ByteVec.ofList read.2.1, read.2.2)

/-- A `u64` from the log; the flag of the read is dropped here as well. -/
def readLength (dir : LogDir) (fuel : Nat) (r : WalReader) :
    Outcome (Nat × WalReader) := do
  let read ← r.readFromLog dir fuel 8 false
  return (LittleEndian.decode read.2.1, read.2.2)

/-- Replay one write operation into the memtable. -/
def parseWriteEntry (dir : LogDir) (fuel : Nat) (r : WalReader) (memtable : Memtable) :
    Outcome (WalReader × Memtable) := do
  let opType ← r.readFromLog dir fuel 1 false
  let keyLen ← opType.2.2.readLength dir fuel
  let key ← keyLen.2.readVec dir fuel keyLen.1
  if opType.2.1 = [WriteOp.putOp] then do
    let valLen ← key.2.readLength dir fuel
    let value ← valLen.2.readVec dir fuel valLen.1
    return (value.2, memtable.put key.1 value.1)
  else if opType.2.1 = [WriteOp.deleteOp] then
    return (key.2, memtable.delete key.1)
  else
    .panic "Unexpected op type!"

/-- The loop in `run`. -/
def runLoop (dir : LogDir) (fuel : Nat) :
    Nat → WalReader → Memtable → Nat → Outcome (RecoveryResult × Memtable)
  | 0, _, _, _ => .unfinished
  | rounds + 1, r, memtable, entriesRecovered => do
      let logType ← r.readFromLog dir fuel 1 true
      if logType.1 = false then
        return ({ newPosition := logType.2.2.position,
                  entriesRecovered := entriesRecovered }, memtable)
      else if logType.2.1 = [LogEntryType.write.toByte] then do
        let parsed ← logType.2.2.parseWriteEntry dir fuel memtable
        runLoop dir fuel rounds parsed.1 parsed.2 (entriesRecovered + 1)
      else
        .panic "Unexpected log entry type!"

/-- Replay every record from the position of the reader on. -/
def run (dir : LogDir) (fuel : Nat) (r : WalReader) (memtable : Memtable) :
    Outcome (RecoveryResult × Memtable) :=
  runLoop dir fuel fuel r memtable 0

end WalReader

/-- Open the log at a position and replay it, as `WriteAheadLog::open` does. -/
def recover (dir : LogDir) (fuel : Nat) (startPosition : Nat) (memtable : Memtable) :
    Outcome (RecoveryResult × Memtable) := do
  let reader ← WalReader.new dir startPosition
  reader.run dir fuel memtable

/-- The outcome of recovery, however much fuel it gets beyond some point. -/
def Recovers (dir : LogDir) (startPosition : Nat) (memtable : Memtable)
    (outcome : Outcome (RecoveryResult × Memtable)) : Prop :=
  ∃ enough, ∀ fuel, enough ≤ fuel → recover dir fuel startPosition memtable = outcome

theorem Recovers.unique
    {dir : LogDir} {startPosition : Nat} {memtable : Memtable}
    {o₁ o₂ : Outcome (RecoveryResult × Memtable)}
    (h₁ : Recovers dir startPosition memtable o₁)
    (h₂ : Recovers dir startPosition memtable o₂) :
    o₁ = o₂ := by
  obtain ⟨n₁, h₁⟩ := h₁
  obtain ⟨n₂, h₂⟩ := h₂
  rw [← h₁ (max n₁ n₂) (le_max_left _ _), h₂ (max n₁ n₂) (le_max_right _ _)]

/-- Once the outcome is known, every statement about it can be decided. -/
theorem Recovers.iff_eq
    {dir : LogDir} {startPosition : Nat} {memtable : Memtable}
    {o₁ o₂ : Outcome (RecoveryResult × Memtable)}
    (h : Recovers dir startPosition memtable o₁) :
    Recovers dir startPosition memtable o₂ ↔ o₁ = o₂ := by
  constructor
  · exact h.unique
  · intro heq
    exact heq ▸ h

section Fuel

variable (dir : LogDir) {fuel fuel' : Nat} (hfuel : fuel ≤ fuel')
include hfuel

theorem readLoop_le
    (isMaybe : Bool) (bufferLen : Nat) (r : WalReader) (out : List UInt8) :
    (WalReader.readLoop dir isMaybe bufferLen fuel r out).Le
      (WalReader.readLoop dir isMaybe bufferLen fuel' r out) := by
  induction fuel generalizing fuel' r out with
  | zero =>
      exact Or.inl rfl
  | succ fuel ih =>
      obtain ⟨more, rfl⟩ : ∃ more, fuel' = more + 1 := ⟨fuel' - 1, by omega⟩
      rw [WalReader.readLoop, WalReader.readLoop]
      split
      · exact .refl _
      · split
        · exact ih (by omega) _ _
        · exact .refl _

theorem readFromLog_le
    (r : WalReader) (bufferLen : Nat) (isMaybe : Bool) :
    (r.readFromLog dir fuel bufferLen isMaybe).Le
      (r.readFromLog dir fuel' bufferLen isMaybe) := by
  unfold WalReader.readFromLog
  split
  · exact .refl _
  · exact readLoop_le dir hfuel _ _ _ _

theorem readVec_le
    (r : WalReader) (n : Nat) :
    (r.readVec dir fuel n).Le (r.readVec dir fuel' n) := by
  unfold WalReader.readVec
  split
  · exact .refl _
  · exact (readFromLog_le dir hfuel r n false).bind fun _ => .refl _

theorem readLength_le
    (r : WalReader) :
    (r.readLength dir fuel).Le (r.readLength dir fuel') :=
  (readFromLog_le dir hfuel r 8 false).bind fun _ => .refl _

theorem parseWriteEntry_le
    (r : WalReader) (memtable : Memtable) :
    (r.parseWriteEntry dir fuel memtable).Le (r.parseWriteEntry dir fuel' memtable) := by
  apply (readFromLog_le dir hfuel r 1 false).bind
  intro opType
  apply (readLength_le dir hfuel opType.2.2).bind
  intro keyLen
  apply (readVec_le dir hfuel keyLen.2 keyLen.1).bind
  intro key
  split
  · apply (readLength_le dir hfuel key.2).bind
    intro valLen
    exact (readVec_le dir hfuel valLen.2 valLen.1).bind fun _ => .refl _
  · exact .refl _

theorem runLoop_le
    {rounds rounds' : Nat}
    (hrounds : rounds ≤ rounds')
    (r : WalReader) (memtable : Memtable) (entriesRecovered : Nat) :
    (r.runLoop dir fuel rounds memtable entriesRecovered).Le
      (r.runLoop dir fuel' rounds' memtable entriesRecovered) := by
  induction rounds generalizing rounds' r memtable entriesRecovered with
  | zero =>
      exact Or.inl rfl
  | succ rounds ih =>
      obtain ⟨more, rfl⟩ : ∃ more, rounds' = more + 1 := ⟨rounds' - 1, by omega⟩
      rw [WalReader.runLoop, WalReader.runLoop]
      apply (readFromLog_le dir hfuel r 1 true).bind
      intro logType
      split
      · exact .refl _
      · split
        · apply (parseWriteEntry_le dir hfuel logType.2.2 memtable).bind
          intro parsed
          exact ih (by omega) _ _ _
        · exact .refl _

end Fuel

/-- A recovery that comes to an end with some fuel does so with more of it. -/
theorem recovers_of_recover
    {dir : LogDir} {startPosition : Nat} {memtable : Memtable}
    {outcome : Outcome (RecoveryResult × Memtable)}
    (fuel : Nat)
    (h : recover dir fuel startPosition memtable = outcome)
    (hne : outcome ≠ .unfinished) :
    Recovers dir startPosition memtable outcome := by
  refine ⟨fuel, ?_⟩
  intro fuel' hfuel
  have hle : (recover dir fuel startPosition memtable).Le
      (recover dir fuel' startPosition memtable) :=
    (Outcome.Le.refl _).bind fun r => runLoop_le dir hfuel hfuel r memtable 0
  rw [hle.eq_of_ne (h ▸ hne), h]

/-- The reader at position `p` of a stream, with the page of `p` loaded. -/
def readerAt (t : List UInt8) (p : Nat) : WalReader where
  position := p
  currentPage := (page pageSize t (p / pageSize)).getD []

section Cursor

variable {dir : LogDir} {t : List UInt8} {start : Nat}
  (hdir : ∀ i, start / pageSize ≤ i → dir i = page pageSize t i)
include hdir

theorem new_eq_readerAt
    (hstart : start ≤ t.length) :
    WalReader.new dir start = .value (readerAt t start) := by
  obtain ⟨c, hc⟩ := exists_page_of_le (P := pageSize) hstart
  simp [WalReader.new, hdir _ (le_refl _), hc, readerAt]

omit hdir in
/-- The loaded page, and how much of it lies behind the position. -/
theorem readerAt_page
    {p : Nat}
    (hp : p ≤ t.length) :
    p % pageSize ≤ (readerAt t p).currentPage.length ∧
    (readerAt t p).currentPage.length - p % pageSize =
      min (pageSize - p % pageSize) (t.length - p) ∧
    (readerAt t p).currentPage.drop (p % pageSize) =
      (t.drop p).take (pageSize - p % pageSize) := by
  obtain ⟨c, hc⟩ := exists_page_of_le (P := pageSize) hp
  have hpage : (readerAt t p).currentPage = c := by
    simp [readerAt, hc]
  obtain ⟨hle, hrem⟩ := page_remaining pageSize_pos hp hc
  rw [hpage]
  exact ⟨hle, hrem, page_drop_offset hc⟩

/-- Inside the stream a round copies up to the end of the page and goes on behind it. -/
theorem readRound_of_lt
    (isMaybe : Bool) (bufferLen : Nat) (out : List UInt8)
    {p : Nat}
    (hstart : start ≤ p) (hp : p < t.length) (hout : out.length < bufferLen) :
    ∃ len,
      0 < len ∧
      len = min (bufferLen - out.length) (min (pageSize - p % pageSize) (t.length - p)) ∧
      (readerAt t p).readRound dir isMaybe bufferLen out =
        .again (readerAt t (p + len), out ++ (t.drop p).take len) := by
  obtain ⟨hle, hrem, hdrop⟩ := readerAt_page (le_of_lt hp)
  have hmod : p % pageSize < pageSize := Nat.mod_lt _ pageSize_pos
  refine ⟨_, ?_, rfl, ?_⟩
  · omega
  set len := min (bufferLen - out.length) (min (pageSize - p % pageSize) (t.length - p))
    with hlen
  have hpos : 0 < len := by omega
  have hcopy : ((readerAt t p).currentPage.drop (p % pageSize)).take len =
      (t.drop p).take len := by
    rw [hdrop, List.take_take]
    congr 1
    omega
  have hposition : (readerAt t p).position = p := rfl
  unfold WalReader.readRound
  simp only [hposition, hrem, ← hlen, hcopy]
  rw [if_neg (by omega), if_neg (by omega)]
  by_cases hboundary : (p + len) % pageSize = 0
  · -- the page is used up, so the next one is loaded
    have hnext : dir ((p + len) / pageSize) = page pageSize t ((p + len) / pageSize) :=
      hdir _ (Nat.div_le_div_right (by omega))
    obtain ⟨c, hc⟩ := exists_page_of_le (P := pageSize) (s := t) (p := p + len) (by omega)
    rw [if_pos hboundary, hnext, hc]
    simp [readerAt, hc]
  · have hsame : (p + len) / pageSize = p / pageSize := by
      simp only [pageSize] at hboundary hlen hmod ⊢
      omega
    rw [if_neg hboundary]
    simp [readerAt, hsame]

omit hdir in
/-- At the end of a stream that ends inside a page the read gives up. -/
theorem readRound_at_end
    (isMaybe : Bool) (bufferLen : Nat) (out : List UInt8)
    (hmod : t.length % pageSize ≠ 0) :
    (readerAt t t.length).readRound dir isMaybe bufferLen out =
      .done (.value (false, zeroPadded bufferLen out, readerAt t t.length)) := by
  obtain ⟨hle, hrem, -⟩ := readerAt_page (t := t) (le_refl _)
  have hlt : t.length % pageSize < pageSize := Nat.mod_lt _ pageSize_pos
  have hposition : (readerAt t t.length).position = t.length := rfl
  unfold WalReader.readRound
  simp only [hposition, hrem]
  rw [if_neg (by omega), if_pos ⟨by omega, hmod⟩, if_pos (by omega)]

/-- At the end of a stream that ends on a page boundary the empty page is loaded again. -/
theorem readRound_stuck
    (isMaybe : Bool) (bufferLen : Nat) (out : List UInt8)
    (hstart : start ≤ t.length)
    (hmod : t.length % pageSize = 0) :
    (readerAt t t.length).readRound dir isMaybe bufferLen out =
      .again (readerAt t t.length, out) := by
  obtain ⟨hle, hrem, -⟩ := readerAt_page (t := t) (le_refl _)
  have hposition : (readerAt t t.length).position = t.length := rfl
  have hzero : min (bufferLen - out.length)
      (min (pageSize - t.length % pageSize) (t.length - t.length)) = 0 := by omega
  obtain ⟨c, hc⟩ := exists_page_of_le (P := pageSize) (s := t) (le_refl _)
  have hpage : dir (t.length / pageSize) = some c := by
    rw [hdir _ (Nat.div_le_div_right hstart), hc]
  unfold WalReader.readRound
  simp only [hposition, hrem, hzero, Nat.add_zero, List.take_zero, List.append_nil]
  rw [if_neg (by omega), if_neg (by omega), if_pos hmod, hpage]
  simp [readerAt, hc]

/-- A buffer that the stream can fill is filled, and the reader moves behind it. -/
theorem readLoop_full
    (isMaybe : Bool) (bufferLen fuel : Nat)
    {p : Nat} {out : List UInt8}
    (hstart : start ≤ p)
    (hout : out.length ≤ bufferLen)
    (hfull : p + (bufferLen - out.length) ≤ t.length)
    (hfuel : t.length - p < fuel) :
    WalReader.readLoop dir isMaybe bufferLen fuel (readerAt t p) out =
      .value (true, out ++ (t.drop p).take (bufferLen - out.length),
        readerAt t (p + (bufferLen - out.length))) := by
  induction fuel generalizing p out with
  | zero =>
      omega
  | succ fuel ih =>
      by_cases hdone : bufferLen ≤ out.length
      · have hzero : bufferLen - out.length = 0 := by omega
        simp [WalReader.readLoop, hdone, hzero]
      · obtain ⟨len, hpos, hlen, hround⟩ :=
          readRound_of_lt hdir isMaybe bufferLen out hstart (by omega) (by omega)
        have hcopied : ((t.drop p).take len).length = len := by
          rw [List.length_take, List.length_drop]
          omega
        have hlength : (out ++ (t.drop p).take len).length = out.length + len := by
          rw [List.length_append, hcopied]
        have hnext := @ih (p + len) (out ++ (t.drop p).take len)
          (by omega) (by omega) (by omega) (by omega)
        have hsum : len + (bufferLen - (out.length + len)) = bufferLen - out.length := by
          omega
        rw [hlength, List.append_assoc, ← List.drop_drop, ← List.take_add,
          Nat.add_assoc, hsum] at hnext
        rw [WalReader.readLoop, if_neg hdone, hround]
        exact hnext

/-- A buffer beyond a stream that ends inside a page is filled as far as possible. -/
theorem readLoop_short
    (isMaybe : Bool) (bufferLen fuel : Nat)
    {p : Nat} {out : List UInt8}
    (hstart : start ≤ p) (hp : p ≤ t.length)
    (hshort : t.length < p + (bufferLen - out.length))
    (hmod : t.length % pageSize ≠ 0)
    (hfuel : t.length - p < fuel) :
    WalReader.readLoop dir isMaybe bufferLen fuel (readerAt t p) out =
      .value (false, zeroPadded bufferLen (out ++ t.drop p), readerAt t t.length) := by
  induction fuel generalizing p out with
  | zero =>
      omega
  | succ fuel ih =>
      have hroom : ¬ bufferLen ≤ out.length := by omega
      rw [WalReader.readLoop, if_neg hroom]
      rcases Nat.lt_or_ge p t.length with hlt | hge
      · obtain ⟨len, hpos, hlen, hround⟩ :=
          readRound_of_lt hdir isMaybe bufferLen out hstart hlt (by omega)
        have hcopied : ((t.drop p).take len).length = len := by
          rw [List.length_take, List.length_drop]
          omega
        have hlength : (out ++ (t.drop p).take len).length = out.length + len := by
          rw [List.length_append, hcopied]
        have hnext := @ih (p + len) (out ++ (t.drop p).take len)
          (by omega) (by omega) (by omega) (by omega)
        rw [List.append_assoc, ← List.drop_drop, List.take_append_drop] at hnext
        rw [hround]
        exact hnext
      · have heq : p = t.length := by omega
        subst heq
        rw [readRound_at_end isMaybe bufferLen out hmod, List.drop_length,
          List.append_nil]

/-- A buffer beyond a stream that ends on a page boundary is never filled. -/
theorem readLoop_stuck
    (isMaybe : Bool) (bufferLen fuel : Nat)
    {p : Nat} {out : List UInt8}
    (hstart : start ≤ p) (hp : p ≤ t.length)
    (hshort : t.length < p + (bufferLen - out.length))
    (hmod : t.length % pageSize = 0) :
    WalReader.readLoop dir isMaybe bufferLen fuel (readerAt t p) out = .unfinished := by
  induction fuel generalizing p out with
  | zero =>
      rfl
  | succ fuel ih =>
      have hroom : ¬ bufferLen ≤ out.length := by omega
      rw [WalReader.readLoop, if_neg hroom]
      rcases Nat.lt_or_ge p t.length with hlt | hge
      · obtain ⟨len, hpos, hlen, hround⟩ :=
          readRound_of_lt hdir isMaybe bufferLen out hstart hlt (by omega)
        have hcopied : ((t.drop p).take len).length = len := by
          rw [List.length_take, List.length_drop]
          omega
        rw [hround]
        apply ih (by omega) (by omega)
        rw [List.length_append, hcopied]
        omega
      · have heq : p = t.length := by omega
        subst heq
        rw [readRound_stuck hdir isMaybe bufferLen out hstart hmod]
        exact ih hstart (le_refl _) hshort

/-- **The paged log as a byte stream.**  On page files that hold the stream `t`, a read of
`n` bytes at position `p` is a read in `t`. -/
theorem readFromLog_spec
    (isMaybe : Bool) (n fuel : Nat)
    {p : Nat}
    (hstart : start ≤ p) (hp : p ≤ t.length)
    (hfuel : t.length < fuel) :
    (readerAt t p).readFromLog dir fuel n isMaybe =
      if n = 0 then .panic "assertion failed: buffer_len > 0"
      else if p + n ≤ t.length then
        .value (true, (t.drop p).take n, readerAt t (p + n))
      else if t.length % pageSize = 0 then .unfinished
      else .value (false, zeroPadded n (t.drop p), readerAt t t.length) := by
  unfold WalReader.readFromLog
  by_cases hn : n = 0
  · rw [if_pos hn, if_pos hn]
  rw [if_neg hn, if_neg hn]
  by_cases hfull : p + n ≤ t.length
  · rw [if_pos hfull,
      readLoop_full hdir isMaybe n fuel hstart (by simp) (by simpa using hfull)
        (by omega)]
    simp
  rw [if_neg hfull]
  by_cases hmod : t.length % pageSize = 0
  · rw [if_pos hmod,
      readLoop_stuck hdir isMaybe n fuel hstart hp (by simp; omega) hmod]
  · rw [if_neg hmod,
      readLoop_short hdir isMaybe n fuel hstart hp (by simp; omega) hmod (by omega)]
    simp

end Cursor

end Wal
end LsmStore
