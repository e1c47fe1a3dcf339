import LsmStore.Wal.Reader
import LsmStore.Wal.Writer

/-!
# The paged log is a byte stream

Writer and reader cut their buffers at the page boundaries, each with its own
arithmetic: the writer creates the next page file when it has filled one, the
reader loads it when it has consumed one.  Neither shows.  Whatever buffers
were written to a fresh log, any sequence of reads behaves like a cursor that
moves through the concatenation of the buffers.
-/

namespace LsmStore
namespace Wal

open PagedStream

/-- One call of `read_from_log`: the length of its buffer and its flag `maybe`. -/
structure ReadCall where
  bufferLen : Nat
  isMaybe : Bool
deriving DecidableEq

/-- What a call of `read_from_log` returned, and where the reader stood afterwards. -/
structure ReadResult where
  success : Bool
  buffer : List UInt8
  position : Nat
deriving DecidableEq

namespace WalReader

/-- Successive calls of `read_from_log`. -/
def readSuccessively (dir : LogDir) (fuel : Nat) :
    WalReader → List ReadCall → Outcome (List ReadResult)
  | _, [] => .value []
  | r, call :: calls => do
      let (success, buffer, r') ← r.readFromLog dir fuel call.bufferLen call.isMaybe
      let results ← readSuccessively dir fuel r' calls
      .value (⟨success, buffer, r'.position⟩ :: results)

end WalReader

/-- What the calls return on a plain stream of bytes, from position `p` on. -/
def streamReads (t : List UInt8) : Nat → List ReadCall → List ReadResult
  | _, [] => []
  | p, call :: calls =>
      ⟨true, (t.drop p).take call.bufferLen, p + call.bufferLen⟩ ::
        streamReads t (p + call.bufferLen) calls

/-- The bytes that all the calls ask for. -/
def totalRead (calls : List ReadCall) : Nat :=
  (calls.map ReadCall.bufferLen).sum

@[simp] theorem totalRead_nil :
    totalRead [] = 0 :=
  rfl

@[simp] theorem totalRead_cons
    (call : ReadCall) (calls : List ReadCall) :
    totalRead (call :: calls) = call.bufferLen + totalRead calls := by
  simp [totalRead]

/-- The buffers, one after the other, are a piece of the stream. -/
theorem flatten_streamReads
    (t : List UInt8) (p : Nat) (calls : List ReadCall) :
    ((streamReads t p calls).map ReadResult.buffer).flatten =
      (t.drop p).take (totalRead calls) := by
  induction calls generalizing p with
  | nil =>
      simp [streamReads]
  | cons call calls ih =>
      rw [streamReads, List.map_cons, List.flatten_cons, ih, totalRead_cons,
        List.take_add, List.drop_drop]

/-- The reader of page files that hold a stream reads the stream. -/
theorem readSuccessively_eq_streamReads
    {dir : LogDir} {t : List UInt8} {start fuel : Nat}
    (hdir : ∀ i, start / pageSize ≤ i → dir i = page pageSize t i)
    (hfuel : t.length < fuel)
    {p : Nat}
    (hstart : start ≤ p)
    (calls : List ReadCall)
    (hpos : ∀ call ∈ calls, 0 < call.bufferLen)
    (hsum : p + totalRead calls ≤ t.length) :
    (readerAt t p).readSuccessively dir fuel calls = .value (streamReads t p calls) := by
  induction calls generalizing p with
  | nil =>
      rfl
  | cons call calls ih =>
      rw [totalRead_cons] at hsum
      have hcall : 0 < call.bufferLen := hpos call (List.mem_cons_self ..)
      have hread := readFromLog_spec hdir call.isMaybe call.bufferLen fuel hstart
        (by omega) hfuel
      rw [if_neg (by omega), if_pos (by omega)] at hread
      have hrest := ih (p := p + call.bufferLen) (by omega)
        (fun next hnext => hpos next (List.mem_cons_of_mem _ hnext)) (by omega)
      rw [WalReader.readSuccessively, hread, Outcome.value_bind]
      simp only [hrest, Outcome.value_bind]
      rfl

/-- **A transparent byte stream.**  After any buffers were written to a fresh log, a reader
that starts at a position before the end returns, for any calls with positive lengths that
stay within the log, the written bytes in order, each call with `true` and each moving the
position by its length.  A round of `read_from_log` consumes at least one byte, so more
rounds than there are bytes are enough. -/
theorem paged_log_is_byte_stream
    (bufs : List (List UInt8))
    (p : Nat)
    (hp : p < bufs.flatten.length)
    (calls : List ReadCall)
    (hcalls : ∀ call ∈ calls, 0 < call.bufferLen)
    (hsum : totalRead calls ≤ bufs.flatten.length - p)
    (fuel : Nat)
    (hfuel : bufs.flatten.length < fuel) :
    let log := WalWriter.new fun _ => none
    let dir := (WalWriter.writeBuffers log.1 log.2 bufs).1
    (WalReader.new dir p >>= fun r => r.readSuccessively dir fuel calls) =
        .value (streamReads bufs.flatten p calls) ∧
      ((streamReads bufs.flatten p calls).map ReadResult.buffer).flatten =
        (bufs.flatten.drop p).take (totalRead calls) := by
  intro log dir
  have hplaced := (placed_new (fun _ => none) fun _ => rfl).writeBuffers bufs
  rw [List.nil_append] at hplaced
  have hdir : ∀ i, p / pageSize ≤ i → dir i = page pageSize bufs.flatten i :=
    fun i _ => hplaced.pages i
  refine ⟨?_, flatten_streamReads _ _ _⟩
  rw [new_eq_readerAt hdir (by omega), Outcome.value_bind]
  exact readSuccessively_eq_streamReads hdir hfuel (le_refl p) calls hcalls (by omega)

/-- Two buffers that together are longer than a page, read across the page boundary. -/
theorem paged_log_is_byte_stream_across :
    let bufs := [List.replicate 4000 (1 : UInt8), List.replicate 200 2]
    let log := WalWriter.new fun _ => none
    let dir := (WalWriter.writeBuffers log.1 log.2 bufs).1
    let calls : List ReadCall := [⟨10, true⟩, ⟨180, false⟩]
    (WalReader.new dir 3999 >>= fun r => r.readSuccessively dir 4201 calls) =
        .value (streamReads bufs.flatten 3999 calls) ∧
      ((streamReads bufs.flatten 3999 calls).map ReadResult.buffer).flatten =
        (bufs.flatten.drop 3999).take (totalRead calls) := by
  have hlen : [List.replicate 4000 (1 : UInt8), List.replicate 200 2].flatten.length =
      4200 := by
    simp only [List.flatten_cons, List.flatten_nil, List.length_append,
      List.length_replicate, List.length_nil]
  exact paged_log_is_byte_stream _ 3999 (by rw [hlen]; decide) [⟨10, true⟩, ⟨180, false⟩]
    (by decide) (by rw [hlen]; decide) 4201 (by rw [hlen]; decide)

end Wal
end LsmStore
