import LsmStore.Wal.Format
import LsmStore.Lib.PagedStream
import Mathlib.Logic.Function.Basic

/-!
# The writer of the write-ahead log

The writer owns a handle of the page file it appends to and its logical
position in the log.  In the default build `write_all` of the standard library
writes at the cursor of the handle, and neither the source nor the model moves
that cursor anywhere else.

`Placed` says that the page files hold a byte stream and that the handle, its
cursor and the logical position all stand at its end.  A fresh writer is
placed at the empty stream, and `writeAll` keeps a placed writer placed.
-/

namespace LsmStore
namespace Wal

open PagedStream

/-- An open file: the page it belongs to and the cursor of the handle. -/
structure LogFile where
  page : Nat
  cursor : Nat
deriving DecidableEq

/-- The task that writes the log to disk. -/
structure WalWriter where
  logFile : LogFile
  position : Nat
deriving DecidableEq

/-- Content of a file after `data` was written at the cursor. -/
def overwrite (content : List UInt8) (cursor : Nat) (data : List UInt8) : List UInt8 :=
  content.take cursor ++ List.replicate (cursor - content.length) 0 ++ data ++
    content.drop (cursor + data.length)

/-- `File::write_all`: write at the cursor and advance it. -/
def LogFile.writeAll (file : LogFile) (dir : LogDir) (data : List UInt8) :
    LogDir × LogFile :=
  (Function.update dir file.page
      ((dir file.page).map (fun content => overwrite content file.cursor data)),
    { file with cursor := file.cursor + data.length })

/-- Create a page file; an existing one is truncated. -/
def createFile (dir : LogDir) (filePos : Nat) : LogDir × LogFile :=
  (Function.update dir filePos (some []), { page := filePos, cursor := 0 })

/-- Open an existing page file; the cursor of a fresh handle stands at its start. -/
def openFile (dir : LogDir) (fpos : Nat) : Option LogFile :=
  (dir fpos).map (fun _ => { page := fpos, cursor := 0 })

namespace WalWriter

/-- The writer of a new log. -/
def new (dir : LogDir) : LogDir × WalWriter :=
  let created := createFile dir 0
  (created.1, { logFile := created.2, position := 0 })

/-- The writer of a log that was opened, at the position recovery ended at. -/
def continueFrom (dir : LogDir) (position : Nat) : Outcome (LogDir × WalWriter) :=
  let fpos := position / pageSize
  if position % pageSize = 0 then
    let created := createFile dir fpos
    .value (created.1, { logFile := created.2, position := position })
  else
    match openFile dir fpos with
    | some logFile => .value (dir, { logFile := logFile, position := position })
    | none => .panic "Failed to open WAL file in directory"

/-- How much of the buffer fits the current page. -/
def writeLen (w : WalWriter) (data : List UInt8) : Nat :=
  min data.length (pageSize - w.position % pageSize)

/-- One round of the loop in `write_all`. -/
def writeChunk (dir : LogDir) (w : WalWriter) (data : List UInt8) :
    LogDir × WalWriter :=
  let fileOffset := w.position % pageSize
  let writeLen := w.writeLen data
  let written := w.logFile.writeAll dir (data.take writeLen)
  let position := w.position + writeLen
  if fileOffset + writeLen = pageSize then
    let created := createFile written.1 (position / pageSize)
    (created.1, { logFile := created.2, position := position })
  else
    (written.1, { logFile := written.2, position := position })

/-- The loop in `write_all`, for at most `fuel` rounds. -/
def writeLoop : Nat → LogDir → WalWriter → List UInt8 → LogDir × WalWriter
  | 0, dir, w, _ => (dir, w)
  | fuel + 1, dir, w, data =>
      if data = [] then (dir, w)
      else
        let next := writeChunk dir w data
        writeLoop fuel next.1 next.2 (data.drop (w.writeLen data))

/-- Append a buffer; every round writes at least one byte, so `data.length` rounds do. -/
def writeAll (dir : LogDir) (w : WalWriter) (data : List UInt8) : LogDir × WalWriter :=
  writeLoop data.length dir w data

/-- Append several buffers in order. -/
def writeBuffers (dir : LogDir) (w : WalWriter) (bufs : List (List UInt8)) :
    LogDir × WalWriter :=
  bufs.foldl (fun st buf => writeAll st.1 st.2 buf) (dir, w)

end WalWriter

/-- The directory holds the stream and the writer stands at its end. -/
structure Placed (dir : LogDir) (w : WalWriter) (s : List UInt8) : Prop where
  pages : ∀ i, dir i = page pageSize s i
  position : w.position = s.length
  file : w.logFile = { page := s.length / pageSize, cursor := s.length % pageSize }

theorem overwrite_at_end
    (content data : List UInt8) :
    overwrite content content.length data = content ++ data := by
  simp [overwrite]

theorem overwrite_length
    (content : List UInt8) (cursor : Nat) (data : List UInt8) :
    (overwrite content cursor data).length = max content.length (cursor + data.length) := by
  simp only [overwrite, List.length_append, List.length_take, List.length_replicate,
    List.length_drop]
  omega

theorem placed_new
    (dir : LogDir)
    (hdir : ∀ i, dir i = none) :
    Placed (WalWriter.new dir).1 (WalWriter.new dir).2 [] := by
  refine ⟨?_, rfl, ?_⟩
  · intro i
    simp only [WalWriter.new, createFile]
    by_cases hi : i = 0
    · subst hi
      simp [page]
    · have hpos : 0 < i * pageSize := Nat.mul_pos (Nat.pos_of_ne_zero hi) pageSize_pos
      rw [Function.update_of_ne hi, hdir i, page_of_lt (by simpa using hpos)]
  · simp [WalWriter.new, createFile]

/-- The handle of a placed writer appends to the page in which the stream ends. -/
theorem Placed.file_writeAll
    {dir : LogDir} {w : WalWriter} {s : List UInt8}
    (h : Placed dir w s)
    (data : List UInt8) (i : Nat) :
    (w.logFile.writeAll dir data).1 i =
      if i = s.length / pageSize then some (s.drop (s.length / pageSize * pageSize) ++ data)
      else page pageSize s i := by
  have hlast : dir (s.length / pageSize) =
      some (s.drop (s.length / pageSize * pageSize)) := by
    rw [h.pages, page_last pageSize_pos]
  have hlen := page_last_length (P := pageSize) s
  simp only [LogFile.writeAll, h.file, hlast, Option.map_some]
  by_cases hi : i = s.length / pageSize
  · subst hi
    rw [Function.update_self, if_pos rfl, ← hlen, overwrite_at_end]
  · rw [Function.update_of_ne hi, if_neg hi, h.pages]

/-- One round of `write_all` appends what it writes. -/
theorem Placed.writeChunk
    {dir : LogDir} {w : WalWriter} {s : List UInt8}
    (h : Placed dir w s)
    (data : List UInt8) :
    Placed (WalWriter.writeChunk dir w data).1 (WalWriter.writeChunk dir w data).2
      (s ++ data.take (w.writeLen data)) := by
  have hmod : s.length % pageSize < pageSize := Nat.mod_lt _ pageSize_pos
  have hlen : w.writeLen data = min data.length (pageSize - s.length % pageSize) := by
    simp [WalWriter.writeLen, h.position]
  have htake : (data.take (w.writeLen data)).length = w.writeLen data := by
    rw [List.length_take]
    omega
  have hfit : s.length % pageSize + w.writeLen data ≤ pageSize := by
    omega
  unfold WalWriter.writeChunk
  simp only [h.position]
  by_cases hfull : s.length % pageSize + w.writeLen data = pageSize
  · have hdiv : (s.length + w.writeLen data) / pageSize = s.length / pageSize + 1 := by
      simp only [pageSize] at hfull ⊢
      omega
    have hmod' : (s.length + w.writeLen data) % pageSize = 0 := by
      simp only [pageSize] at hfull ⊢
      omega
    rw [if_pos hfull]
    refine ⟨?_, ?_, ?_⟩
    · intro i
      rw [page_append_of_full pageSize_pos s _ i (by rw [htake]; exact hfull)]
      simp only [createFile, hdiv]
      by_cases hi : i = s.length / pageSize + 1
      · subst hi
        rw [Function.update_self, if_pos rfl]
      · rw [Function.update_of_ne hi, if_neg hi, h.file_writeAll]
    · simp [htake]
    · simp [createFile, htake, hdiv, hmod']
  · have hroom : s.length % pageSize + w.writeLen data < pageSize := by
      omega
    have hdiv : (s.length + w.writeLen data) / pageSize = s.length / pageSize := by
      simp only [pageSize] at hroom ⊢
      omega
    have hmod' : (s.length + w.writeLen data) % pageSize =
        s.length % pageSize + w.writeLen data := by
      simp only [pageSize] at hroom ⊢
      omega
    rw [if_neg hfull]
    refine ⟨?_, ?_, ?_⟩
    · intro i
      rw [page_append_of_room pageSize_pos s _ i (by rw [htake]; exact hroom), h.file_writeAll]
    · simp [htake]
    · simp [LogFile.writeAll, h.file, htake, hdiv, hmod']

/-- A round of `write_all` on a nonempty buffer writes something. -/
theorem WalWriter.writeLen_pos
    (w : WalWriter)
    {data : List UInt8}
    (hdata : data ≠ []) :
    0 < w.writeLen data := by
  have hpos : 0 < data.length := List.length_pos_iff.mpr hdata
  have hmod : w.position % pageSize < pageSize := Nat.mod_lt _ pageSize_pos
  unfold writeLen
  omega

theorem Placed.writeLoop
    (fuel : Nat)
    {dir : LogDir} {w : WalWriter} {s data : List UInt8}
    (h : Placed dir w s)
    (hfuel : data.length ≤ fuel) :
    Placed (WalWriter.writeLoop fuel dir w data).1
      (WalWriter.writeLoop fuel dir w data).2 (s ++ data) := by
  induction fuel generalizing dir w s data with
  | zero =>
      have hnil : data = [] := List.length_eq_zero_iff.mp (by omega)
      subst hnil
      simpa [WalWriter.writeLoop] using h
  | succ fuel ih =>
      by_cases hdata : data = []
      · subst hdata
        simpa [WalWriter.writeLoop] using h
      · have hpos := w.writeLen_pos hdata
        have hrest : (data.drop (w.writeLen data)).length ≤ fuel := by
          rw [List.length_drop]
          omega
        have hnext := ih (h.writeChunk data) hrest
        rw [List.append_assoc, List.take_append_drop] at hnext
        simpa [WalWriter.writeLoop, hdata] using hnext

theorem Placed.writeAll
    {dir : LogDir} {w : WalWriter} {s : List UInt8}
    (h : Placed dir w s)
    (data : List UInt8) :
    Placed (WalWriter.writeAll dir w data).1 (WalWriter.writeAll dir w data).2
      (s ++ data) :=
  h.writeLoop data.length (le_refl _)

theorem Placed.writeBuffers
    {dir : LogDir} {w : WalWriter} {s : List UInt8}
    (h : Placed dir w s)
    (bufs : List (List UInt8)) :
    Placed (WalWriter.writeBuffers dir w bufs).1 (WalWriter.writeBuffers dir w bufs).2
      (s ++ bufs.flatten) := by
  induction bufs generalizing dir w s with
  | nil =>
      simpa [WalWriter.writeBuffers] using h
  | cons buf bufs ih =>
      have hnext := ih (h.writeAll buf)
      rw [List.append_assoc] at hnext
      simpa [WalWriter.writeBuffers] using hnext

/-- A round of `write_all` treats page files alike that agree from some page on. -/
theorem writeChunk_agree
    {first : Nat} {dir dir' : LogDir}
    (h : ∀ i, first ≤ i → dir i = dir' i)
    (w : WalWriter) (data : List UInt8) :
    (WalWriter.writeChunk dir w data).2 = (WalWriter.writeChunk dir' w data).2 ∧
    ∀ i, first ≤ i →
      (WalWriter.writeChunk dir w data).1 i = (WalWriter.writeChunk dir' w data).1 i := by
  have hwritten : ∀ i, first ≤ i → ∀ data,
      (w.logFile.writeAll dir data).1 i = (w.logFile.writeAll dir' data).1 i := by
    intro i hi data
    simp only [LogFile.writeAll, Function.update_apply]
    split_ifs with heq
    · rw [h _ (heq ▸ hi)]
    · exact h i hi
  unfold WalWriter.writeChunk
  simp only
  split
  · refine ⟨rfl, ?_⟩
    intro i hi
    simp only [createFile, Function.update_apply]
    split
    · rfl
    · exact hwritten i hi _
  · exact ⟨rfl, fun i hi => hwritten i hi _⟩

theorem writeLoop_agree
    (fuel : Nat)
    {first : Nat} {dir dir' : LogDir}
    (h : ∀ i, first ≤ i → dir i = dir' i)
    (w : WalWriter) (data : List UInt8) :
    (WalWriter.writeLoop fuel dir w data).2 = (WalWriter.writeLoop fuel dir' w data).2 ∧
    ∀ i, first ≤ i →
      (WalWriter.writeLoop fuel dir w data).1 i =
        (WalWriter.writeLoop fuel dir' w data).1 i := by
  induction fuel generalizing dir dir' w data with
  | zero =>
      exact ⟨rfl, h⟩
  | succ fuel ih =>
      by_cases hdata : data = []
      · simpa [WalWriter.writeLoop, hdata] using h
      · obtain ⟨hwriter, hpages⟩ := writeChunk_agree h w data
        simp only [WalWriter.writeLoop, if_neg hdata, ← hwriter]
        exact ih hpages _ _

/-- `write_all` does not look at the page files below the one it writes to. -/
theorem writeAll_agree
    {first : Nat} {dir dir' : LogDir}
    (h : ∀ i, first ≤ i → dir i = dir' i)
    (w : WalWriter) (data : List UInt8) :
    (WalWriter.writeAll dir w data).2 = (WalWriter.writeAll dir' w data).2 ∧
    ∀ i, first ≤ i →
      (WalWriter.writeAll dir w data).1 i = (WalWriter.writeAll dir' w data).1 i :=
  writeLoop_agree data.length h w data

namespace WalWriter

@[simp] theorem writeChunk_position
    (dir : LogDir) (w : WalWriter) (data : List UInt8) :
    (writeChunk dir w data).2.position = w.position + w.writeLen data := by
  unfold writeChunk
  simp only
  split <;> rfl

theorem writeLoop_position
    (fuel : Nat)
    (dir : LogDir) (w : WalWriter) (data : List UInt8)
    (hfuel : data.length ≤ fuel) :
    (writeLoop fuel dir w data).2.position = w.position + data.length := by
  induction fuel generalizing dir w data with
  | zero =>
      simp only [writeLoop]
      omega
  | succ fuel ih =>
      by_cases hdata : data = []
      · simp [writeLoop, hdata]
      · have hpos := w.writeLen_pos hdata
        have hle : w.writeLen data ≤ data.length := min_le_left _ _
        have hlen : (data.drop (w.writeLen data)).length = data.length - w.writeLen data :=
          List.length_drop
        simp only [writeLoop, if_neg hdata]
        rw [ih _ _ _ (by omega), writeChunk_position]
        omega

@[simp] theorem writeAll_position
    (dir : LogDir) (w : WalWriter) (data : List UInt8) :
    (writeAll dir w data).2.position = w.position + data.length :=
  writeLoop_position data.length dir w data (le_refl _)

theorem writeBuffers_append
    (dir : LogDir) (w : WalWriter) (xs ys : List (List UInt8)) :
    writeBuffers dir w (xs ++ ys) =
      writeBuffers (writeBuffers dir w xs).1 (writeBuffers dir w xs).2 ys :=
  List.foldl_append

@[simp] theorem writeBuffers_position
    (dir : LogDir) (w : WalWriter) (bufs : List (List UInt8)) :
    (writeBuffers dir w bufs).2.position = w.position + bufs.flatten.length := by
  induction bufs generalizing dir w with
  | nil =>
      rfl
  | cons buf bufs ih =>
      have hnext := ih (writeAll dir w buf).1 (writeAll dir w buf).2
      simp only [writeAll_position] at hnext
      simp only [List.flatten_cons, List.length_append, ← Nat.add_assoc]
      exact hnext

end WalWriter

end Wal
end LsmStore
