import LsmStore.Wal.Reader

/-!
# Replaying a stream of records

What the reader does on page files that hold a byte stream, record by record.
A complete record whose key and value are not empty is replayed into the
memtable.  A record with an empty key or an empty value stops recovery with a
panic, since `read_from_log` asserts that its buffer is not empty.  Behind the
last complete record the reader either sees the end of the log, keeps loading
an empty page forever, or replays whatever the remaining bytes give.
-/

namespace LsmStore

/-- An operation with an empty key, or a put with an empty value. -/
def WriteOp.hasEmptyField : WriteOp → Bool
  | .put key value => key.data.isEmpty || value.data.isEmpty
  | .delete key => key.data.isEmpty

namespace Wal

open PagedStream

section Records

variable {dir : LogDir} {t : List UInt8} {start : Nat}
  (hdir : ∀ i, start / pageSize ≤ i → dir i = page pageSize t i)
  {fuel : Nat} (hfuel : t.length < fuel)
include hdir hfuel

theorem readFromLog_bytes
    (isMaybe : Bool)
    {p : Nat} {bytes rest : List UInt8}
    (hstart : start ≤ p)
    (hdrop : t.drop p = bytes ++ rest)
    (hne : bytes ≠ []) :
    (readerAt t p).readFromLog dir fuel bytes.length isMaybe =
      .value (true, bytes, readerAt t (p + bytes.length)) := by
  have hpos : 0 < bytes.length := List.length_pos_iff.mpr hne
  have hlen := congrArg List.length hdrop
  rw [List.length_drop, List.length_append] at hlen
  rw [readFromLog_spec hdir isMaybe bytes.length fuel hstart (by omega) hfuel,
    if_neg (by omega), if_pos (by omega), hdrop, List.take_left]

theorem readLength_bytes
    {p : Nat} {rest : List UInt8}
    (b : ByteVec)
    (hstart : start ≤ p)
    (hdrop : t.drop p = lengthBytes b.len ++ rest) :
    (readerAt t p).readLength dir fuel = .value (b.len, readerAt t (p + 8)) := by
  have hne : lengthBytes b.len ≠ [] := by
    intro h
    have hlen := lengthBytes_length b.len
    rw [h] at hlen
    cases hlen
  have hread := readFromLog_bytes hdir hfuel false hstart hdrop hne
  rw [lengthBytes_length] at hread
  simp [WalReader.readLength, hread, decode_lengthBytes]

theorem readVec_bytes
    {p : Nat} {rest : List UInt8}
    (b : ByteVec)
    (hstart : start ≤ p)
    (hdrop : t.drop p = b.data ++ rest)
    (hne : b.data ≠ []) :
    (readerAt t p).readVec dir fuel b.len = .value (b, readerAt t (p + b.len)) := by
  have hlt := b.length_lt
  have hread := readFromLog_bytes hdir hfuel false hstart hdrop hne
  unfold WalReader.readVec ByteVec.len
  rw [if_neg (by omega), hread]
  simp [ByteVec.ofList_data]

omit hdir hfuel in
/-- An empty buffer trips the assertion of `read_from_log`. -/
theorem readVec_empty
    (r : WalReader) :
    r.readVec dir fuel 0 = .panic "assertion failed: buffer_len > 0" := by
  simp [WalReader.readVec, WalReader.readFromLog]

/-- A record behind its first byte, read into the memtable. -/
theorem parseWriteEntry_record
    {p : Nat} {rest : List UInt8}
    (op : WriteOp) (memtable : Memtable)
    (hstart : start ≤ p)
    (hdrop : t.drop p = encodeEntry op ++ rest) :
    (readerAt t (p + 1)).parseWriteEntry dir fuel memtable =
      if op.hasEmptyField then .panic "assertion failed: buffer_len > 0"
      else .value (readerAt t (p + (encodeEntry op).length), memtable.apply op) := by
  have hnext : ∀ (q n : Nat) (bytes tail : List UInt8),
      t.drop q = bytes ++ tail → bytes.length = n → t.drop (q + n) = tail := by
    intro q n bytes tail h hn
    rw [← List.drop_drop, h, ← hn, List.drop_left]
  have hbody : t.drop (p + 1) =
      [op.getType] ++ (lengthBytes op.getKeyLength ++ (op.getKey.data ++
        (encodeValue op ++ rest))) := by
    apply hnext p 1 [LogEntryType.write.toByte]
    · rw [hdrop]
      simp [encodeEntry]
    · rfl
  have hkeyLen := hnext (p + 1) 1 _ _ hbody rfl
  have hkey := hnext (p + 1 + 1) 8 _ _ hkeyLen (lengthBytes_length _)
  have hvalue := hnext (p + 1 + 1 + 8) op.getKey.len _ _ hkey rfl
  have hreadType := readFromLog_bytes hdir hfuel false (by omega) hbody (by simp)
  have hreadLen := readLength_bytes hdir hfuel op.getKey (by omega) hkeyLen
  simp only [List.length_singleton] at hreadType
  unfold WalReader.parseWriteEntry
  simp only [hreadType, hreadLen, Outcome.value_bind]
  by_cases hemptyKey : op.getKey.data = []
  · have hlen : op.getKey.len = 0 := by simp [ByteVec.len, hemptyKey]
    have hfield : op.hasEmptyField = true := by
      cases op <;> simp_all [WriteOp.hasEmptyField, WriteOp.getKey]
    rw [hlen, readVec_empty, hfield]
    rfl
  have hreadKey := readVec_bytes hdir hfuel op.getKey (by omega) hkey hemptyKey
  rw [hreadKey, encodeEntry_length]
  cases op with
  | delete key =>
      have hfield : (WriteOp.delete key).hasEmptyField = false := by
        simpa [WriteOp.hasEmptyField, WriteOp.getKey] using hemptyKey
      have hpos : p + 1 + 1 + 8 + key.len = p + (10 + key.len) := by omega
      simp [hfield, WriteOp.getType, WriteOp.putOp, WriteOp.deleteOp, encodeValue,
        Memtable.apply, WriteOp.getKey, hpos]
  | put key value =>
      simp only [WriteOp.getKey] at hvalue hemptyKey
      have hvalLen : t.drop (p + 1 + 1 + 8 + key.len) =
          lengthBytes value.len ++ (value.data ++ rest) := by
        simpa [encodeValue] using hvalue
      have hval := hnext _ 8 _ _ hvalLen (lengthBytes_length _)
      have hreadValLen := readLength_bytes hdir hfuel value (by omega) hvalLen
      simp only [Outcome.value_bind, WriteOp.getType, if_true, WriteOp.getKey, hreadValLen]
      by_cases hemptyValue : value.data = []
      · have hlen : value.len = 0 := by simp [ByteVec.len, hemptyValue]
        have hfield : (WriteOp.put key value).hasEmptyField = true := by
          simp [WriteOp.hasEmptyField, hemptyValue]
        rw [hlen, readVec_empty, hfield]
        rfl
      · have hfield : (WriteOp.put key value).hasEmptyField = false := by
          simp [WriteOp.hasEmptyField, hemptyKey, hemptyValue]
        have hreadVal := readVec_bytes hdir hfuel value (by omega) hval hemptyValue
        have hpos : p + 1 + 1 + 8 + key.len + 8 + value.len =
            p + (10 + key.len + (encodeValue (.put key value)).length) := by
          simp only [encodeValue, List.length_append, lengthBytes_length, ByteVec.len]
          omega
        rw [hreadVal, hfield]
        simp [Memtable.apply, hpos]

theorem runLoop_record
    {p : Nat} {rest : List UInt8}
    (rounds : Nat) (op : WriteOp) (memtable : Memtable) (entriesRecovered : Nat)
    (hstart : start ≤ p)
    (hdrop : t.drop p = encodeEntry op ++ rest) :
    (readerAt t p).runLoop dir fuel (rounds + 1) memtable entriesRecovered =
      if op.hasEmptyField then .panic "assertion failed: buffer_len > 0"
      else (readerAt t (p + (encodeEntry op).length)).runLoop dir fuel rounds
        (memtable.apply op) (entriesRecovered + 1) := by
  have htype : t.drop p = [LogEntryType.write.toByte] ++ (encodeEntry op ++ rest).drop 1 := by
    rw [hdrop]
    simp [encodeEntry]
  have hread := readFromLog_bytes hdir hfuel true hstart htype (by simp)
  have hparse := parseWriteEntry_record hdir hfuel op memtable hstart hdrop
  simp only [List.length_singleton] at hread
  rw [WalReader.runLoop]
  simp only [hread, Outcome.value_bind, Bool.true_eq_false, if_false, if_true, hparse]
  by_cases hfield : op.hasEmptyField = true
  · rw [if_pos hfield, if_pos hfield]
    rfl
  · rw [if_neg hfield, if_neg hfield]
    rfl

/-- The complete records at the cursor are replayed one after another. -/
theorem runLoop_records
    {p : Nat} {rest : List UInt8}
    (rounds : Nat) (ops : List WriteOp) (memtable : Memtable) (entriesRecovered : Nat)
    (hstart : start ≤ p)
    (hdrop : t.drop p = encode ops ++ rest)
    (hfields : ∀ op ∈ ops, op.hasEmptyField = false) :
    (readerAt t p).runLoop dir fuel (ops.length + rounds) memtable entriesRecovered =
      (readerAt t (p + (encode ops).length)).runLoop dir fuel rounds
        (memtable.applyAll ops) (entriesRecovered + ops.length) := by
  induction ops generalizing p memtable entriesRecovered with
  | nil =>
      simp
  | cons op ops ih =>
      rw [encode_cons, List.append_assoc] at hdrop
      have hrest : t.drop (p + (encodeEntry op).length) = encode ops ++ rest := by
        rw [← List.drop_drop, hdrop, List.drop_left]
      have hnext := ih (memtable.apply op) (entriesRecovered + 1) (by omega) hrest
        (fun o ho => hfields o (List.mem_cons_of_mem _ ho))
      have hrounds : (op :: ops).length + rounds = ops.length + rounds + 1 := by
        simp only [List.length_cons]
        omega
      rw [hrounds, runLoop_record hdir hfuel _ op memtable _ hstart hdrop,
        hfields op List.mem_cons_self, if_neg (by simp), hnext]
      simp only [encode_cons, List.length_append, List.length_cons, Memtable.applyAll_cons,
        Nat.add_assoc, Nat.add_comm 1]

/-- Behind the last record recovery ends, unless the log ends on a page boundary. -/
theorem runLoop_end
    (rounds : Nat) (memtable : Memtable) (entriesRecovered : Nat)
    (hstart : start ≤ t.length) :
    (readerAt t t.length).runLoop dir fuel (rounds + 1) memtable entriesRecovered =
      if t.length % pageSize = 0 then .unfinished
      else .value ({ newPosition := t.length, entriesRecovered := entriesRecovered },
        memtable) := by
  rw [WalReader.runLoop,
    readFromLog_spec hdir true 1 fuel hstart (le_refl _) hfuel,
    if_neg (by omega), if_neg (by omega)]
  by_cases hmod : t.length % pageSize = 0
  · rw [if_pos hmod, if_pos hmod]
    rfl
  · rw [if_neg hmod, if_neg hmod]
    rfl

end Records

/-- What the reader makes of a log whose records behind the start are `ops`. -/
def replay (total : Nat) (ops : List WriteOp) (memtable : Memtable) :
    Outcome (RecoveryResult × Memtable) :=
  if ops.any WriteOp.hasEmptyField then .panic "assertion failed: buffer_len > 0"
  else if total % pageSize = 0 then .unfinished
  else .value ({ newPosition := total, entriesRecovered := ops.length }, memtable.applyAll ops)

/-- Up to the first operation with an empty field. -/
theorem exists_first_empty_field
    {ops : List WriteOp}
    (h : ops.any WriteOp.hasEmptyField = true) :
    ∃ pre op post,
      ops = pre ++ op :: post ∧ op.hasEmptyField = true ∧
      ∀ o ∈ pre, o.hasEmptyField = false := by
  induction ops with
  | nil =>
      cases h
  | cons op ops ih =>
      by_cases hop : op.hasEmptyField = true
      · exact ⟨[], op, ops, rfl, hop, by simp⟩
      · obtain ⟨pre, op', post, rfl, hop', hpre⟩ := ih (by simpa [hop] using h)
        refine ⟨op :: pre, op', post, rfl, hop', ?_⟩
        intro o ho
        rcases List.mem_cons.mp ho with rfl | ho
        · simpa using hop
        · exact hpre o ho

/-- Every record takes at least one byte, so there are at most as many rounds as bytes. -/
theorem length_le_encode
    (ops : List WriteOp) :
    ops.length ≤ (encode ops).length := by
  induction ops with
  | nil =>
      simp
  | cons op ops ih =>
      have hlen := encodeEntry_length op
      simp only [List.length_cons, encode_cons, List.length_append]
      omega

/-- **Recovery of a whole log.**  Page files that hold the stream `t` from the start
position on, where the bytes behind the start are the records of `ops`. -/
theorem recovers_encode
    {dir : LogDir} {t : List UInt8} {start : Nat}
    (hdir : ∀ i, start / pageSize ≤ i → dir i = page pageSize t i)
    (ops : List WriteOp)
    (hstart : start ≤ t.length)
    (hdrop : t.drop start = encode ops)
    (memtable : Memtable) :
    Recovers dir start memtable (replay t.length ops memtable) := by
  refine ⟨t.length + 1, ?_⟩
  intro fuel hfuel
  have hlen := congrArg List.length hdrop
  have hcount := length_le_encode ops
  rw [List.length_drop] at hlen
  unfold recover WalReader.run
  rw [new_eq_readerAt hdir hstart, Outcome.value_bind]
  by_cases hany : ops.any WriteOp.hasEmptyField = true
  · obtain ⟨pre, op, post, rfl, hop, hpre⟩ := exists_first_empty_field hany
    rw [encode_append] at hdrop
    have hrest : t.drop (start + (encode pre).length) = encodeEntry op ++ encode post := by
      rw [← List.drop_drop, hdrop, List.drop_left, encode_cons]
    obtain ⟨rounds, hrounds⟩ : ∃ rounds, fuel = pre.length + (rounds + 1) :=
      ⟨fuel - pre.length - 1, by rw [List.length_append, List.length_cons] at hcount; omega⟩
    rw [replay, if_pos hany]
    conv_lhs => arg 3; rw [hrounds]
    rw [runLoop_records hdir (by omega) _ pre memtable 0 (le_refl _) hdrop hpre,
      runLoop_record hdir (by omega) rounds op _ _ (by omega) hrest, if_pos hop]
  · have hfields : ∀ op ∈ ops, op.hasEmptyField = false := by
      simpa using hany
    obtain ⟨rounds, hrounds⟩ : ∃ rounds, fuel = ops.length + (rounds + 1) :=
      ⟨fuel - ops.length - 1, by omega⟩
    have hend : start + (encode ops).length = t.length := by omega
    rw [replay, if_neg hany]
    conv_lhs => arg 3; rw [hrounds]
    rw [runLoop_records hdir (by omega) _ ops memtable 0 (le_refl _)
        (hdrop.trans (List.append_nil _).symm) hfields, hend,
      runLoop_end hdir (by omega) rounds _ _ hstart, Nat.zero_add]

/-- Recovery succeeds exactly if the log does not end on a page boundary and no record
behind the start has an empty field. -/
theorem replay_eq_value_iff
    (total : Nat) (ops : List WriteOp) (memtable : Memtable) :
    replay total ops memtable =
        .value ({ newPosition := total, entriesRecovered := ops.length },
          memtable.applyAll ops) ↔
      total % pageSize ≠ 0 ∧ ∀ op ∈ ops, op.hasEmptyField = false := by
  unfold replay
  by_cases hany : ops.any WriteOp.hasEmptyField = true
  · rw [if_pos hany]
    simp_all
  · rw [if_neg hany]
    have hfields : ∀ op ∈ ops, op.hasEmptyField = false := by
      simpa using hany
    by_cases hmod : total % pageSize = 0 <;> simp_all

/-- Whatever recovery returns is the whole log. -/
theorem replay_value
    {total : Nat} {ops : List WriteOp} {memtable : Memtable}
    {result : RecoveryResult × Memtable}
    (h : replay total ops memtable = .value result) :
    result = ({ newPosition := total, entriesRecovered := ops.length },
      memtable.applyAll ops) := by
  unfold replay at h
  split at h
  · cases h
  · split at h
    · cases h
    · cases h
      rfl

/-- Recovery hangs exactly if the log ends on a page boundary and it gets that far. -/
theorem replay_eq_unfinished_iff
    (total : Nat) (ops : List WriteOp) (memtable : Memtable) :
    replay total ops memtable = .unfinished ↔
      total % pageSize = 0 ∧ ∀ op ∈ ops, op.hasEmptyField = false := by
  unfold replay
  by_cases hany : ops.any WriteOp.hasEmptyField = true
  · rw [if_pos hany]
    simp_all
  · rw [if_neg hany]
    have hfields : ∀ op ∈ ops, op.hasEmptyField = false := by
      simpa using hany
    by_cases hmod : total % pageSize = 0 <;> simp_all

end Wal
end LsmStore
