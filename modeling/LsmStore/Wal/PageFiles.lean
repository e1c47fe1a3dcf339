import LsmStore.Wal.Reader
import LsmStore.Wal.Writer

/-!
# Which page files there are

The writer creates page files one after the other, as its position gets to
them, and writes to no page file more than a page.  Recovery reads page files
one after the other as well, so it has found all of them up to the position it
ends at.  Nothing here depends on what is in the page files: in particular it
holds for a log that a reopened writer has damaged.
-/

namespace LsmStore
namespace Wal

/-- No page file is longer than a page. -/
def PagesFit (dir : LogDir) : Prop :=
  ∀ i content, dir i = some content → content.length ≤ pageSize

/-- The cursor of the handle is not ahead of the position. -/
def WalWriter.CursorBehind (w : WalWriter) : Prop :=
  w.logFile.cursor ≤ w.position % pageSize

/-! ## The writer -/

section Writing

variable {dir : LogDir} {w : WalWriter}

theorem isSome_file_writeAll
    (file : LogFile) (dir : LogDir) (data : List UInt8) (i : Nat) :
    ((file.writeAll dir data).1 i).isSome = (dir i).isSome := by
  simp only [LogFile.writeAll, Function.update_apply]
  split_ifs with heq
  · rw [heq, Option.isSome_map]
  · rfl

theorem isSome_createFile
    (dir : LogDir) (filePos i : Nat) :
    ((createFile dir filePos).1 i).isSome ↔ (dir i).isSome ∨ i = filePos := by
  simp only [createFile, Function.update_apply]
  split_ifs with heq <;> simp [heq]

/-- A round of `write_all` stays in its page, or ends at the start of the next one. -/
theorem div_writeLen
    (w : WalWriter) (data : List UInt8) :
    (w.position % pageSize + w.writeLen data = pageSize →
      (w.position + w.writeLen data) / pageSize = w.position / pageSize + 1 ∧
        (w.position + w.writeLen data) % pageSize = 0) ∧
    (w.position % pageSize + w.writeLen data ≠ pageSize →
      (w.position + w.writeLen data) / pageSize = w.position / pageSize ∧
        (w.position + w.writeLen data) % pageSize = w.position % pageSize + w.writeLen data) := by
  simp only [WalWriter.writeLen, pageSize]
  omega

theorem isSome_writeChunk
    (dir : LogDir) (w : WalWriter) (data : List UInt8) (i : Nat) :
    ((w.writeChunk dir data).1 i).isSome ↔ (dir i).isSome ∨
      (w.position / pageSize < i ∧ i ≤ (w.position + w.writeLen data) / pageSize) := by
  obtain ⟨hfull, hroom⟩ := div_writeLen w data
  unfold WalWriter.writeChunk
  dsimp only
  split_ifs with heq
  · rw [isSome_createFile, isSome_file_writeAll, (hfull heq).1]
    refine or_congr_right ?_
    omega
  · rw [isSome_file_writeAll, (hroom heq).1]
    refine (or_iff_left ?_).symm
    omega

theorem isSome_writeLoop
    (fuel : Nat) (dir : LogDir) (w : WalWriter) {data : List UInt8}
    (hfuel : data.length ≤ fuel)
    (i : Nat) :
    ((WalWriter.writeLoop fuel dir w data).1 i).isSome ↔ (dir i).isSome ∨
      (w.position / pageSize < i ∧ i ≤ (w.position + data.length) / pageSize) := by
  induction fuel generalizing dir w data with
  | zero =>
      have hnil : data = [] := List.length_eq_zero_iff.mp (by omega)
      rw [hnil, WalWriter.writeLoop, List.length_nil, Nat.add_zero]
      refine (or_iff_left ?_).symm
      omega
  | succ fuel ih =>
      by_cases hdata : data = []
      · rw [hdata, WalWriter.writeLoop, if_pos rfl, List.length_nil, Nat.add_zero]
        refine (or_iff_left ?_).symm
        omega
      · have hpos := w.writeLen_pos hdata
        have hle : w.writeLen data ≤ data.length := min_le_left _ _
        have hlen : (data.drop (w.writeLen data)).length = data.length - w.writeLen data :=
          List.length_drop
        have hmid : w.position / pageSize ≤ (w.position + w.writeLen data) / pageSize :=
          Nat.div_le_div_right (Nat.le_add_right _ _)
        have hend : (w.position + w.writeLen data) / pageSize ≤
            (w.position + data.length) / pageSize :=
          Nat.div_le_div_right (by omega)
        rw [WalWriter.writeLoop, if_neg hdata]
        dsimp only
        rw [ih _ _ (by omega), isSome_writeChunk, WalWriter.writeChunk_position, hlen, or_assoc]
        refine or_congr_right ?_
        have hsum : w.position + w.writeLen data + (data.length - w.writeLen data) =
            w.position + data.length := by omega
        rw [hsum]
        omega

/-- **`write_all` creates the page files** behind the page it starts in, up to the one it ends
in. -/
theorem isSome_writeAll
    (dir : LogDir) (w : WalWriter) (data : List UInt8) (i : Nat) :
    ((w.writeAll dir data).1 i).isSome ↔ (dir i).isSome ∨
      (w.position / pageSize < i ∧ i ≤ (w.position + data.length) / pageSize) :=
  isSome_writeLoop data.length dir w (le_refl _) i

theorem PagesFit.createFile
    (h : PagesFit dir)
    (filePos : Nat) :
    PagesFit (createFile dir filePos).1 := by
  intro i content hcontent
  simp only [Wal.createFile, Function.update_apply] at hcontent
  split_ifs at hcontent
  · cases hcontent
    exact Nat.zero_le _
  · exact h i content hcontent

theorem PagesFit.removeFile
    (h : PagesFit dir)
    (fpos : Nat) :
    PagesFit (Function.update dir fpos none) := by
  intro i content hcontent
  rw [Function.update_apply] at hcontent
  split_ifs at hcontent
  exact h i content hcontent

theorem PagesFit.file_writeAll
    (h : PagesFit dir)
    {file : LogFile} {data : List UInt8}
    (hroom : file.cursor + data.length ≤ pageSize) :
    PagesFit (file.writeAll dir data).1 := by
  intro i content hcontent
  simp only [LogFile.writeAll, Function.update_apply] at hcontent
  split_ifs at hcontent
  · obtain ⟨old, hold, rfl⟩ := Option.map_eq_some_iff.mp hcontent
    rw [overwrite_length]
    exact max_le (h _ old hold) hroom
  · exact h i content hcontent

theorem PagesFit.writeChunk
    (h : PagesFit dir)
    (hcursor : w.CursorBehind)
    (data : List UInt8) :
    PagesFit (w.writeChunk dir data).1 ∧ (w.writeChunk dir data).2.CursorBehind := by
  obtain ⟨hfull, hroom⟩ := div_writeLen w data
  have hlen : (data.take (w.writeLen data)).length = w.writeLen data := by
    rw [List.length_take]
    exact min_eq_left (min_le_left _ _)
  have hmod : w.position % pageSize < pageSize := Nat.mod_lt _ pageSize_pos
  have hle : w.writeLen data ≤ pageSize - w.position % pageSize := min_le_right _ _
  have hfits : PagesFit (w.logFile.writeAll dir (data.take (w.writeLen data))).1 := by
    refine h.file_writeAll ?_
    rw [hlen]
    unfold WalWriter.CursorBehind at hcursor
    omega
  unfold WalWriter.writeChunk WalWriter.CursorBehind
  dsimp only
  split_ifs with heq
  · exact ⟨hfits.createFile _, Nat.zero_le _⟩
  · refine ⟨hfits, ?_⟩
    rw [(hroom heq).2]
    simp only [LogFile.writeAll, hlen]
    exact Nat.add_le_add_right hcursor _

theorem PagesFit.writeLoop
    (fuel : Nat)
    (h : PagesFit dir)
    (hcursor : w.CursorBehind)
    (data : List UInt8) :
    PagesFit (WalWriter.writeLoop fuel dir w data).1 ∧
      (WalWriter.writeLoop fuel dir w data).2.CursorBehind := by
  induction fuel generalizing dir w data with
  | zero =>
      exact ⟨h, hcursor⟩
  | succ fuel ih =>
      rw [WalWriter.writeLoop]
      split_ifs
      · exact ⟨h, hcursor⟩
      · obtain ⟨hnext, hnextCursor⟩ := h.writeChunk hcursor data
        exact ih hnext hnextCursor _

theorem PagesFit.writeAll
    (h : PagesFit dir)
    (hcursor : w.CursorBehind)
    (data : List UInt8) :
    PagesFit (w.writeAll dir data).1 ∧ (w.writeAll dir data).2.CursorBehind :=
  h.writeLoop data.length hcursor data

/-- A writer that continues a log has the page file it writes to. -/
theorem continueFrom_pages
    {position : Nat} {origin : LogDir × WalWriter}
    (h : WalWriter.continueFrom dir position = .value origin) :
    origin.2.position = position ∧ origin.2.CursorBehind ∧ (PagesFit dir → PagesFit origin.1) ∧
      ∀ i, (origin.1 i).isSome ↔ (dir i).isSome ∨ i = position / pageSize := by
  unfold WalWriter.continueFrom at h
  dsimp only at h
  split_ifs at h
  · cases h
    exact ⟨rfl, Nat.zero_le _, fun hfits => hfits.createFile _, isSome_createFile _ _⟩
  · cases hfile : openFile dir (position / pageSize) with
    | none =>
        rw [hfile] at h
        cases h
    | some logFile =>
        rw [hfile] at h
        cases h
        obtain ⟨content, hcontent, rfl⟩ := Option.map_eq_some_iff.mp hfile
        refine ⟨rfl, Nat.zero_le _, id, fun i => (or_iff_left_of_imp ?_).symm⟩
        rintro rfl
        dsimp only
        rw [hcontent]
        rfl

end Writing

/-! ## The reader -/

section Reading

variable {dir : LogDir} {start : Nat}

/-- All page files between two positions are there, the last one perhaps not. -/
structure Passed (dir : LogDir) (start position : Nat) : Prop where
  start_le : start ≤ position
  pages : ∀ i, start / pageSize ≤ i → i < position / pageSize → (dir i).isSome

/-- The reader has loaded the page file of its position. -/
structure WalReader.ReadUpTo (dir : LogDir) (start : Nat) (r : WalReader) : Prop
    extends Passed dir start r.position where
  loaded : dir (r.position / pageSize) = some r.currentPage

/-- A position that is still in the page, or at the start of the next one. -/
theorem WalReader.ReadUpTo.passed
    {r : WalReader}
    (h : r.ReadUpTo dir start)
    {position : Nat}
    (hle : r.position ≤ position)
    (hpage : position / pageSize ≤ r.position / pageSize + 1) :
    Passed dir start position := by
  refine ⟨le_trans h.start_le hle, fun i hi hlt => ?_⟩
  rcases Nat.lt_or_ge i (r.position / pageSize) with hbelow | habove
  · exact h.pages i hi hbelow
  · obtain rfl : i = r.position / pageSize := by omega
    rw [h.loaded]
    rfl

/-- What a round of `read_from_log` leads to, if it does not fail. -/
theorem WalReader.ReadUpTo.readRound
    {r : WalReader}
    (h : r.ReadUpTo dir start)
    (hfits : PagesFit dir)
    (isMaybe : Bool) (bufferLen : Nat) (out : List UInt8) :
    (∀ st, r.readRound dir isMaybe bufferLen out = .again st → st.1.ReadUpTo dir start) ∧
    ∀ read, r.readRound dir isMaybe bufferLen out = .done (.value read) →
      Passed dir start read.2.2.position ∧ read.1 = false ∧
        (isMaybe = false → read.2.2.ReadUpTo dir start) := by
  have hpage := hfits _ _ h.loaded
  have hmod : r.position % pageSize < pageSize := Nat.mod_lt _ pageSize_pos
  -- the bytes that are copied end in the page
  have hend : ∀ len, len ≤ r.currentPage.length - r.position % pageSize →
      (r.position + len) / pageSize ≤ r.position / pageSize + 1 ∧
        ((r.position + len) % pageSize ≠ 0 →
          (r.position + len) / pageSize = r.position / pageSize) := by
    intro len hlen
    simp only [pageSize] at hlen hpage hmod ⊢
    omega
  set len := min (bufferLen - out.length) (r.currentPage.length - r.position % pageSize)
    with hlen
  obtain ⟨hnext, hsame⟩ := hend len (min_le_right _ _)
  have hpassed := h.passed (Nat.le_add_right r.position len) hnext
  unfold WalReader.readRound
  simp only [← hlen]
  split_ifs with hsmall hnone hshort hboundary hmaybe
  · exact ⟨by rintro _ ⟨⟩, by rintro _ ⟨⟩⟩
  · refine ⟨by rintro _ ⟨⟩, ?_⟩
    rintro read ⟨⟩
    exact ⟨h.toPassed, rfl, fun _ => h⟩
  · exact ⟨by rintro _ ⟨⟩, by rintro _ ⟨⟩⟩
  -- the position is at the start of a page, which has to be loaded
  · cases hdata : dir ((r.position + len) / pageSize) with
    | some data =>
        refine ⟨?_, by rintro _ ⟨⟩⟩
        rintro st ⟨⟩
        exact ⟨hpassed, hdata⟩
    | none =>
        refine ⟨by rintro _ ⟨⟩, ?_⟩
        rintro read ⟨⟩
        exact ⟨hpassed, rfl, fun hnot => absurd (hnot.symm.trans hmaybe) Bool.false_ne_true⟩
  · cases hdata : dir ((r.position + len) / pageSize) with
    | some data =>
        refine ⟨?_, by rintro _ ⟨⟩⟩
        rintro st ⟨⟩
        exact ⟨hpassed, hdata⟩
    | none =>
        exact ⟨by rintro _ ⟨⟩, by rintro _ ⟨⟩⟩
  · refine ⟨?_, by rintro _ ⟨⟩⟩
    rintro st ⟨⟩
    exact ⟨hpassed, (hsame hboundary) ▸ h.loaded⟩

section Calls

variable (hfits : PagesFit dir)
include hfits

section Reader

variable {r : WalReader}
variable (h : r.ReadUpTo dir start)

include h

theorem WalReader.ReadUpTo.readLoop
    {isMaybe : Bool} {bufferLen fuel : Nat} {out : List UInt8}
    {read : Bool × List UInt8 × WalReader}
    (hread : r.readLoop dir isMaybe bufferLen fuel out = .value read) :
    Passed dir start read.2.2.position ∧
      (isMaybe = false ∨ read.1 = true → read.2.2.ReadUpTo dir start) := by
  induction fuel generalizing r out with
  | zero =>
      cases hread
  | succ fuel ih =>
      rw [WalReader.readLoop] at hread
      obtain ⟨hagain, hdone⟩ := h.readRound hfits isMaybe bufferLen out
      split_ifs at hread
      · cases hread
        exact ⟨h.toPassed, fun _ => h⟩
      · cases hround : r.readRound dir isMaybe bufferLen out with
        | again st =>
            rw [hround] at hread
            exact ih (hagain st hround) hread
        | done outcome =>
            simp only [hround] at hread
            rw [hread] at hround
            obtain ⟨hpassed, hfalse, hloaded⟩ := hdone read hround
            refine ⟨hpassed, fun hor => hloaded (hor.resolve_right ?_)⟩
            rw [hfalse]
            exact Bool.false_ne_true

theorem WalReader.ReadUpTo.readFromLog
    {isMaybe : Bool} {bufferLen fuel : Nat} {read : Bool × List UInt8 × WalReader}
    (hread : r.readFromLog dir fuel bufferLen isMaybe = .value read) :
    Passed dir start read.2.2.position ∧
      (isMaybe = false ∨ read.1 = true → read.2.2.ReadUpTo dir start) := by
  unfold WalReader.readFromLog at hread
  split_ifs at hread
  exact h.readLoop hfits hread

theorem WalReader.ReadUpTo.readVec
    {fuel n : Nat} {read : ByteVec × WalReader}
    (hread : r.readVec dir fuel n = .value read) :
    read.2.ReadUpTo dir start := by
  unfold WalReader.readVec at hread
  split_ifs at hread
  obtain ⟨full, hfull, hvalue⟩ := Outcome.bind_eq_value hread
  cases hvalue
  exact (h.readFromLog hfits hfull).2 (Or.inl rfl)

theorem WalReader.ReadUpTo.readLength
    {fuel : Nat} {read : Nat × WalReader}
    (hread : r.readLength dir fuel = .value read) :
    read.2.ReadUpTo dir start := by
  obtain ⟨full, hfull, hvalue⟩ := Outcome.bind_eq_value hread
  cases hvalue
  exact (h.readFromLog hfits hfull).2 (Or.inl rfl)

theorem WalReader.ReadUpTo.parseWriteEntry
    {fuel : Nat} {memtable : Memtable} {parsed : WalReader × Memtable}
    (hparsed : r.parseWriteEntry dir fuel memtable = .value parsed) :
    parsed.1.ReadUpTo dir start := by
  obtain ⟨opType, hop, hparsed⟩ := Outcome.bind_eq_value hparsed
  have hopRead := (h.readFromLog hfits hop).2 (Or.inl rfl)
  obtain ⟨keyLen, hkeyLen, hparsed⟩ := Outcome.bind_eq_value hparsed
  obtain ⟨key, hkey, hparsed⟩ := Outcome.bind_eq_value hparsed
  have hkeyRead := (hopRead.readLength hfits hkeyLen).readVec hfits hkey
  split_ifs at hparsed
  · obtain ⟨valLen, hvalLen, hparsed⟩ := Outcome.bind_eq_value hparsed
    obtain ⟨value, hvalue, hparsed⟩ := Outcome.bind_eq_value hparsed
    cases hparsed
    exact (hkeyRead.readLength hfits hvalLen).readVec hfits hvalue
  · cases hparsed
    exact hkeyRead

theorem WalReader.ReadUpTo.runLoop
    {fuel rounds : Nat} {memtable : Memtable} {entriesRecovered : Nat}
    {recovered : RecoveryResult × Memtable}
    (hrun : r.runLoop dir fuel rounds memtable entriesRecovered = .value recovered) :
    Passed dir start recovered.1.newPosition := by
  induction rounds generalizing r memtable entriesRecovered with
  | zero =>
      cases hrun
  | succ rounds ih =>
      rw [WalReader.runLoop] at hrun
      obtain ⟨logType, hlogType, hrun⟩ := Outcome.bind_eq_value hrun
      obtain ⟨hpassed, hloaded⟩ := h.readFromLog hfits hlogType
      split_ifs at hrun with hsuccess
      · cases hrun
        exact hpassed
      · obtain ⟨parsed, hparsed, hrun⟩ := Outcome.bind_eq_value hrun
        have hread := hloaded (Or.inr (by simpa using hsuccess))
        exact ih (hread.parseWriteEntry hfits hparsed) hrun

end Reader

/-- **A recovery that returns** has found all page files from where it started. -/
theorem passed_of_recovers
    {memtable : Memtable} {recovered : RecoveryResult × Memtable}
    (h : Recovers dir start memtable (.value recovered)) :
    Passed dir start recovered.1.newPosition := by
  obtain ⟨fuel, hfuel⟩ := h
  obtain ⟨r, hnew, hrun⟩ := Outcome.bind_eq_value (hfuel fuel (le_refl _))
  have hread : r.ReadUpTo dir start := by
    unfold WalReader.new at hnew
    cases hpage : dir (start / pageSize) with
    | none =>
        simp only [hpage] at hnew
        cases hnew
    | some currentPage =>
        simp only [hpage] at hnew
        cases hnew
        exact ⟨⟨le_refl _, fun i hi hlt => absurd hi (not_le.mpr hlt)⟩, hpage⟩
  exact hread.runLoop hfits hrun

end Calls

end Reading

end Wal
end LsmStore
