import LsmStore.Wal.Replay
import LsmStore.Wal.System

/-!
# Recovery of what the writer leaves behind

Three questions about reopening a log: whether the reader gets back what was
stored, whether it comes to an end, and what it makes of a log whose last
bytes were lost in a crash.

In each case the answer is exact.  The reader asserts that no buffer is empty,
so an operation with an empty key or value cannot be read back.  It keeps
loading the last page while that page is empty, so a log that ends on a page
boundary is never left.  It ignores the flag that tells that a field was cut
off, so the zeros of the buffer become part of the operation.
-/

namespace LsmStore
namespace Wal

open PagedStream

/-- Recovery of the page files of a running log, from a position between two of the
operations that have been written. -/
theorem recovers_of_files
    {dir : LogDir} {first : Nat} {before after : List WriteOp}
    (hdir : ∀ i, first / pageSize ≤ i → dir i = page pageSize (encode (before ++ after)) i)
    (hfirst : first ≤ (encode before).length)
    (memtable : Memtable) :
    Recovers dir (encode before).length memtable
      (replay (encode (before ++ after)).length after memtable) := by
  apply recovers_encode (t := encode (before ++ after))
  · intro i hi
    exact hdir i (le_trans (Nat.div_le_div_right hfirst) hi)
  · simp
  · rw [encode_append, List.drop_left]

/-- **Decoding undoes encoding.**  For every log position that `store` has returned, and
for the start of the log, recovery from there gives back the operations stored behind it,
unless the log ends on a page boundary or one of them has an empty key or value. -/
theorem recovers_stored_iff
    (events : List Event) (p : Nat) (memtable : Memtable)
    (hwritten : (LogState.new.run events).status.writePos =
      (LogState.new.run events).status.queuePos)
    (hp : p = 0 ∨ p ∈ (LogState.new.run events).acknowledged)
    (hoffset : (LogState.new.run events).status.offsetPos ≤ p) :
    ∃ before after,
      (LogState.new.run events).stored = before ++ after ∧
      p = (encode before).length ∧
      (Recovers (LogState.new.run events).dir p memtable
          (.value
            ({ newPosition := (encode (LogState.new.run events).stored).length
               entriesRecovered := after.length },
              memtable.applyAll after)) ↔
        (encode (LogState.new.run events).stored).length % pageSize ≠ 0 ∧
        ∀ op ∈ after, op.hasEmptyField = false) := by
  have hack := ackInv_run (WalWriter.new (fun _ => none)) 0 events
  change AckInv _ (LogState.new.run events) at hack
  obtain ⟨ops, rest, hstored, -, hdir, hrest⟩ := new_run_files events
  rw [hrest hwritten, List.append_nil] at hstored
  have hboundary : RecordBoundary 0 (LogState.new.run events).stored p := by
    rcases hp with rfl | hp
    · exact ⟨[], _, rfl, rfl⟩
    · exact hack.acknowledged p hp
  obtain ⟨before, after, hsplit, hpos⟩ := hboundary
  rw [Nat.zero_add] at hpos
  subst hpos
  rw [← hstored, hsplit] at hdir
  refine ⟨before, after, hsplit, rfl, ?_⟩
  rw [hsplit, (recovers_of_files hdir hoffset memtable).iff_eq]
  exact replay_eq_value_iff _ _ _

/-- An operation without a value. -/
def emptyValuePut : WriteOp :=
  .put (ByteVec.ofList [1]) (ByteVec.ofList [])

/-- Two puts are stored; recovery from the first acknowledged position gives back the
second one. -/
theorem recovers_stored_second_put :
    (LogState.new.run (storeOne shortPut ++ storeOne otherPut)).acknowledged = [20, 40] ∧
    Recovers (LogState.new.run (storeOne shortPut ++ storeOne otherPut)).dir 20 (Memtable.new 1)
      (.value ({ newPosition := 40, entriesRecovered := 1 },
        (Memtable.new 1).applyAll [otherPut])) := by
  have hack : (LogState.new.run (storeOne shortPut ++ storeOne otherPut)).acknowledged =
      [20, 40] := by decide +kernel
  have hops : (LogState.new.run (storeOne shortPut ++ storeOne otherPut)).stored =
      [shortPut, otherPut] := by decide +kernel
  obtain ⟨before, after, hsplit, hp, hiff⟩ := recovers_stored_iff
    (storeOne shortPut ++ storeOne otherPut) 20 (Memtable.new 1) (by decide +kernel)
    (Or.inr (by rw [hack]; decide)) (by decide +kernel)
  rw [hops] at hsplit hiff
  -- the position 20 is behind the first put
  obtain rfl : after = [otherPut] := by
    rcases List.cons_eq_append_iff.mp hsplit with ⟨rfl, -⟩ | ⟨before', rfl, hrest⟩
    · cases hp
    · rcases List.cons_eq_append_iff.mp hrest with ⟨rfl, hafter⟩ | ⟨before'', rfl, hnil⟩
      · exact hafter
      · rw [(List.append_eq_nil_iff.mp hnil.symm).1] at hp
        exact absurd hp (by decide +kernel)
  exact ⟨hack, hiff.mpr (by decide +kernel)⟩

/-- A put with an empty value is stored and acknowledged, and recovery panics. -/
theorem recovers_stored_empty_value :
    (LogState.new.run (storeOne emptyValuePut)).status.writePos =
      (LogState.new.run (storeOne emptyValuePut)).status.queuePos ∧
    (LogState.new.run (storeOne emptyValuePut)).acknowledged = [19] ∧
    Recovers (LogState.new.run (storeOne emptyValuePut)).dir 0 (Memtable.new 1)
      (.panic "assertion failed: buffer_len > 0") ∧
    ¬ ∃ result, Recovers (LogState.new.run (storeOne emptyValuePut)).dir 0 (Memtable.new 1)
      (.value result) := by
  have hpanic : Recovers (LogState.new.run (storeOne emptyValuePut)).dir 0 (Memtable.new 1)
      (.panic "assertion failed: buffer_len > 0") :=
    recovers_of_recover 20 (by decide +kernel) (by simp)
  refine ⟨by decide +kernel, by decide +kernel, hpanic, ?_⟩
  rintro ⟨result, hresult⟩
  cases hpanic.unique hresult

/-- The reader with the page of its position loaded. -/
def WalReader.loadedAt (dir : LogDir) (position : Nat) : WalReader where
  position := position
  currentPage := (dir (position / pageSize)).getD []

/-- Every round of the loop in `read_from_log` that goes on has moved the position. -/
def ReadsProgress (dir : LogDir) (start total : Nat) : Prop :=
  ∀ q isMaybe bufferLen out r' out',
    start ≤ q → q ≤ total → out.length < bufferLen →
    (WalReader.loadedAt dir q).readRound dir isMaybe bufferLen out = .again (r', out') →
    q < r'.position

/-- On page files that hold a stream, rounds make progress unless the stream ends on a
page boundary. -/
theorem readsProgress_iff
    {dir : LogDir} {t : List UInt8} {start : Nat}
    (hdir : ∀ i, start / pageSize ≤ i → dir i = page pageSize t i)
    (hstart : start ≤ t.length) :
    ReadsProgress dir start t.length ↔ t.length % pageSize ≠ 0 := by
  have hreader : ∀ q, start ≤ q → WalReader.loadedAt dir q = readerAt t q := by
    intro q hq
    simp only [WalReader.loadedAt, readerAt, hdir _ (Nat.div_le_div_right hq)]
  constructor
  · intro hprogress hmod
    have hround := readRound_stuck hdir false 1 [] hstart hmod
    rw [← hreader _ hstart] at hround
    have hlt := hprogress _ _ _ _ _ _ hstart (le_refl _) (by simp) hround
    exact absurd hlt (lt_irrefl _)
  · intro hmod q isMaybe bufferLen out r' out' hq hle hout hround
    rw [hreader q hq] at hround
    rcases Nat.lt_or_ge q t.length with hlt | hge
    · obtain ⟨len, hpos, -, hnext⟩ :=
        readRound_of_lt hdir isMaybe bufferLen out hq hlt hout
      rw [hnext] at hround
      cases hround
      show q < q + len
      omega
    · have heq : q = t.length := by omega
      subst heq
      rw [readRound_at_end isMaybe bufferLen out hmod] at hround
      cases hround

/-- **Termination of recovery.**  Whatever the writer leaves behind, and from whichever
position between two operations recovery starts: it makes progress and returns unless the
log ends on a page boundary or an operation has an empty key or value, and it hangs exactly
if it gets to the end of a log that ends on a page boundary. -/
theorem recovery_returns_iff
    (events : List Event) (memtable : Memtable) :
    ∃ ops rest,
      (LogState.new.run events).stored = ops ++ rest ∧
      (LogState.new.run events).writer.position = (encode ops).length ∧
      ∀ before after,
        ops = before ++ after →
        (LogState.new.run events).status.offsetPos ≤ (encode before).length →
        ((ReadsProgress (LogState.new.run events).dir (encode before).length
              (LogState.new.run events).writer.position ∧
            ∃ result, Recovers (LogState.new.run events).dir (encode before).length memtable
              (.value result)) ↔
          (LogState.new.run events).writer.position % pageSize ≠ 0 ∧
          ∀ op ∈ after, op.hasEmptyField = false) ∧
        (Recovers (LogState.new.run events).dir (encode before).length memtable .unfinished ↔
          (LogState.new.run events).writer.position % pageSize = 0 ∧
          ∀ op ∈ after, op.hasEmptyField = false) := by
  obtain ⟨ops, rest, hstored, hposition, hdir, -⟩ := new_run_files events
  refine ⟨ops, rest, hstored, hposition, ?_⟩
  intro before after hops hoffset
  subst hops
  have hrecovers := recovers_of_files hdir hoffset memtable
  have hprogress : ReadsProgress (LogState.new.run events).dir (encode before).length
      (encode (before ++ after)).length ↔ (encode (before ++ after)).length % pageSize ≠ 0 := by
    apply readsProgress_iff
    · intro i hi
      exact hdir i (le_trans (Nat.div_le_div_right hoffset) hi)
    · simp
  rw [hposition]
  constructor
  · rw [hprogress]
    constructor
    · rintro ⟨-, result, hresult⟩
      have hvalue := hrecovers.unique hresult
      rw [replay_value hvalue] at hvalue
      exact (replay_eq_value_iff _ _ _).mp hvalue
    · intro hcond
      have hvalue := (replay_eq_value_iff _ _ memtable).mpr hcond
      exact ⟨hcond.1, _, hvalue ▸ hrecovers⟩
  · rw [hrecovers.iff_eq]
    exact replay_eq_unfinished_iff _ _ _

/-- A log to which nothing was written is never left again. -/
theorem recovery_of_new_log_hangs :
    LogState.new.stored = [] ∧
    Recovers LogState.new.dir 0 (Memtable.new 1) .unfinished ∧
    ¬ ∃ result, Recovers LogState.new.dir 0 (Memtable.new 1) (.value result) := by
  have hfiles := (placed_new (fun _ => none) (fun _ => rfl)).pages
  have hhangs : Recovers LogState.new.dir 0 (Memtable.new 1) .unfinished :=
    recovers_encode (fun i _ => hfiles i) [] (le_refl _) rfl (Memtable.new 1)
  refine ⟨rfl, hhangs, ?_⟩
  rintro ⟨result, hresult⟩
  cases hhangs.unique hresult

/-- The operations whose records lie completely in the first `m` bytes of the log. -/
def completeOps : Nat → List WriteOp → List WriteOp
  | _, [] => []
  | m, op :: ops =>
      if (encodeEntry op).length ≤ m then op :: completeOps (m - (encodeEntry op).length) ops
      else []

/-- The page files when a crash leaves the first `m` bytes of the log. -/
def tornDir (ops : List WriteOp) (m : Nat) : LogDir :=
  page pageSize ((encode ops).take m)

/-- What is left behind the last complete record starts like a record. -/
theorem take_encode
    (ops : List WriteOp) (m : Nat) :
    ∃ rest,
      (encode ops).take m = encode (completeOps m ops) ++ rest ∧
      (rest = [] ∨ ∃ tail, rest = LogEntryType.write.toByte :: tail) := by
  induction ops generalizing m with
  | nil =>
      exact ⟨[], by simp [completeOps], Or.inl rfl⟩
  | cons op ops ih =>
      by_cases hle : (encodeEntry op).length ≤ m
      · obtain ⟨rest, htake, hrest⟩ := ih (m - (encodeEntry op).length)
        refine ⟨rest, ?_, hrest⟩
        rw [completeOps, if_pos hle, encode_cons, encode_cons, List.append_assoc, ← htake,
          List.take_append, List.take_of_length_le hle]
      · refine ⟨(encodeEntry op).take m, ?_, ?_⟩
        · rw [completeOps, if_neg hle, encode_cons, List.take_append_of_le_length (by omega),
            encode_nil, List.nil_append]
        · cases m with
          | zero =>
              exact Or.inl rfl
          | succ m =>
              right
              exact ⟨_, rfl⟩

/-- Replaying a record takes one sequence number. -/
theorem parseWriteEntry_nextSeqNumber
    {dir : LogDir} {fuel : Nat} {r : WalReader} {memtable : Memtable}
    {parsed : WalReader × Memtable}
    (h : r.parseWriteEntry dir fuel memtable = .value parsed) :
    parsed.2.nextSeqNumber = memtable.nextSeqNumber + 1 := by
  unfold WalReader.parseWriteEntry at h
  obtain ⟨opType, -, h⟩ := Outcome.bind_eq_value h
  obtain ⟨keyLen, -, h⟩ := Outcome.bind_eq_value h
  obtain ⟨key, -, h⟩ := Outcome.bind_eq_value h
  split at h
  · obtain ⟨valLen, -, h⟩ := Outcome.bind_eq_value h
    obtain ⟨value, -, h⟩ := Outcome.bind_eq_value h
    cases h
    rfl
  · split at h
    · cases h
      rfl
    · cases h

theorem runLoop_nextSeqNumber_le
    {dir : LogDir} {fuel rounds : Nat} {r : WalReader} {memtable : Memtable}
    {entriesRecovered : Nat} {result : RecoveryResult × Memtable}
    (h : r.runLoop dir fuel rounds memtable entriesRecovered = .value result) :
    memtable.nextSeqNumber ≤ result.2.nextSeqNumber := by
  induction rounds generalizing r memtable entriesRecovered with
  | zero =>
      cases h
  | succ rounds ih =>
      rw [WalReader.runLoop] at h
      obtain ⟨logType, -, h⟩ := Outcome.bind_eq_value h
      split at h
      · cases h
        exact le_refl _
      · split at h
        · obtain ⟨parsed, hparsed, h⟩ := Outcome.bind_eq_value h
          have hnext := ih h
          rw [parseWriteEntry_nextSeqNumber hparsed] at hnext
          omega
        · cases h

/-- If a record has begun, recovery that returns has replayed something for it. -/
theorem runLoop_nextSeqNumber_lt
    {dir : LogDir} {t : List UInt8} {start : Nat}
    (hdir : ∀ i, start / pageSize ≤ i → dir i = page pageSize t i)
    {fuel : Nat}
    (hfuel : t.length < fuel)
    {p rounds : Nat} {memtable : Memtable} {entriesRecovered : Nat} {tail : List UInt8}
    {result : RecoveryResult × Memtable}
    (hstart : start ≤ p)
    (hdrop : t.drop p = LogEntryType.write.toByte :: tail)
    (h : (readerAt t p).runLoop dir fuel rounds memtable entriesRecovered = .value result) :
    memtable.nextSeqNumber < result.2.nextSeqNumber := by
  cases rounds with
  | zero =>
      cases h
  | succ rounds =>
      have hread := readFromLog_bytes hdir hfuel true hstart
        (hdrop.trans (List.singleton_append).symm) (by simp)
      simp only [List.length_singleton] at hread
      rw [WalReader.runLoop] at h
      simp only [hread, Outcome.value_bind, Bool.true_eq_false, if_false, if_true] at h
      obtain ⟨parsed, hparsed, h⟩ := Outcome.bind_eq_value h
      have hnext := runLoop_nextSeqNumber_le h
      rw [parseWriteEntry_nextSeqNumber hparsed] at hnext
      omega

/-- A run that returns has replayed the complete records in front of the cursor. -/
theorem runLoop_past_records
    {dir : LogDir} {t : List UInt8} {start : Nat}
    (hdir : ∀ i, start / pageSize ≤ i → dir i = page pageSize t i)
    {fuel : Nat}
    (hfuel : t.length < fuel)
    {p rounds : Nat} {memtable : Memtable} {entriesRecovered : Nat} {rest : List UInt8}
    {result : RecoveryResult × Memtable}
    (ops : List WriteOp)
    (hstart : start ≤ p)
    (hdrop : t.drop p = encode ops ++ rest)
    (h : (readerAt t p).runLoop dir fuel rounds memtable entriesRecovered = .value result) :
    ∃ rounds', (readerAt t (p + (encode ops).length)).runLoop dir fuel rounds'
      (memtable.applyAll ops) (entriesRecovered + ops.length) = .value result := by
  induction ops generalizing p rounds memtable entriesRecovered with
  | nil =>
      exact ⟨rounds, h⟩
  | cons op ops ih =>
      rw [encode_cons, List.append_assoc] at hdrop
      cases rounds with
      | zero =>
          cases h
      | succ rounds =>
          rw [runLoop_record hdir hfuel rounds op memtable _ hstart hdrop] at h
          split at h
          · cases h
          · have hnext : t.drop (p + (encodeEntry op).length) = encode ops ++ rest := by
              rw [← List.drop_drop, hdrop, List.drop_left]
            obtain ⟨rounds', hrounds'⟩ := ih (by omega) hnext h
            refine ⟨rounds', ?_⟩
            simpa only [encode_cons, List.length_append, List.length_cons,
              Memtable.applyAll_cons, Nat.add_assoc, Nat.add_comm 1] using hrounds'

/-- **Recovery of a torn log.**  It replays exactly the complete records if and only if
nothing is left behind them, the log does not end on a page boundary, and none of the
operations has an empty key or value. -/
theorem torn_recovers_iff
    (ops : List WriteOp) (m : Nat) (memtable : Memtable) :
    (∃ result, Recovers (tornDir ops m) 0 memtable
        (.value (result, memtable.applyAll (completeOps m ops)))) ↔
      (encode ops).take m = encode (completeOps m ops) ∧
      (encode (completeOps m ops)).length % pageSize ≠ 0 ∧
      ∀ op ∈ completeOps m ops, op.hasEmptyField = false := by
  obtain ⟨rest, htake, hrest⟩ := take_encode ops m
  have hdir : ∀ i, 0 / pageSize ≤ i → tornDir ops m i = page pageSize ((encode ops).take m) i :=
    fun _ _ => rfl
  constructor
  · rintro ⟨result, enough, hresult⟩
    have hnil : rest = [] := by
      -- otherwise the record behind the complete ones has begun and takes a number too
      rcases hrest with hnil | ⟨tail, htail⟩
      · exact hnil
      exfalso
      have hrun := hresult (max enough (((encode ops).take m).length + 1)) (le_max_left _ _)
      unfold recover at hrun
      rw [new_eq_readerAt hdir (Nat.zero_le _), Outcome.value_bind] at hrun
      obtain ⟨rounds, hrounds⟩ := runLoop_past_records hdir (by omega) (completeOps m ops)
        (le_refl _) htake hrun
      have hbegun : ((encode ops).take m).drop (0 + (encode (completeOps m ops)).length) =
          LogEntryType.write.toByte :: tail := by
        rw [htake, Nat.zero_add, List.drop_left, htail]
      have hlt := runLoop_nextSeqNumber_lt hdir (by omega) (Nat.zero_le _) hbegun hrounds
      exact absurd hlt (lt_irrefl _)
    rw [hnil, List.append_nil] at htake
    have hrecovers := recovers_encode hdir (completeOps m ops) (Nat.zero_le _) htake memtable
    have hvalue := hrecovers.unique ⟨enough, hresult⟩
    rw [replay_value hvalue] at hvalue
    obtain ⟨hmod, hfields⟩ := (replay_eq_value_iff _ _ _).mp hvalue
    rw [htake] at hmod
    exact ⟨htake, hmod, hfields⟩
  · rintro ⟨hwhole, hmod, hfields⟩
    have hrecovers := recovers_encode hdir (completeOps m ops) (Nat.zero_le _) hwhole memtable
    rw [← hwhole] at hmod
    have hvalue := (replay_eq_value_iff _ _ memtable).mpr ⟨hmod, hfields⟩
    exact ⟨_, hvalue ▸ hrecovers⟩

/-- A crash that loses the value byte of a put leaves the put with a zero byte as value,
although no record is complete. -/
theorem torn_put_replayed_with_zero_value :
    completeOps 19 [shortPut] = [] ∧
    Recovers (tornDir [shortPut] 19) 0 (Memtable.new 1)
      (.value ({ newPosition := 19, entriesRecovered := 1 },
        (Memtable.new 1).put (ByteVec.ofList [1]) (ByteVec.ofList [0]))) ∧
    ¬ ∃ result, Recovers (tornDir [shortPut] 19) 0 (Memtable.new 1)
      (.value (result, (Memtable.new 1).applyAll (completeOps 19 [shortPut]))) := by
  have hzero : Recovers (tornDir [shortPut] 19) 0 (Memtable.new 1)
      (.value ({ newPosition := 19, entriesRecovered := 1 },
        (Memtable.new 1).put (ByteVec.ofList [1]) (ByteVec.ofList [0]))) :=
    recovers_of_recover 20 (by decide +kernel) (by simp)
  refine ⟨by decide +kernel, hzero, ?_⟩
  rintro ⟨result, hresult⟩
  have heq := hzero.unique hresult
  simp only [Outcome.value.injEq, Prod.mk.injEq] at heq
  exact absurd heq.2 (by decide +kernel)

end Wal
end LsmStore
