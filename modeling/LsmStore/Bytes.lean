import LsmStore.Basic
import LsmStore.Lib.LittleEndian

/-!
# Byte buffers

What the formats on disk have in common: slices, which panic when they are out
of range, lengths that are padded to a whole word, and numbers cut to 32 bits.
-/

namespace LsmStore

def wordSize : Nat :=
  8

def computePadding (offset : Nat) : Nat :=
  if offset % wordSize = 0 then 0 else wordSize - offset % wordSize

def padOffset (offset : Nat) : Nat :=
  offset + computePadding offset

/-- A number cut to 32 bits. -/
def u32 (n : Nat) : Nat :=
  n % 2 ^ 32

/-- `&data[start..]`. -/
def sliceFrom (data : List UInt8) (start : Nat) : Outcome (List UInt8) :=
  let len := data.length
  if start ≤ len then .value (data.drop start)
  else .panic s!"range start index {start} out of range for slice of length {len}"

/-- `&data[start..stop]`. -/
def sliceRange (data : List UInt8) (start stop : Nat) : Outcome (List UInt8) :=
  let len := data.length
  if stop < start then .panic s!"slice index starts at {start} but ends at {stop}"
  else if len < stop then
    .panic s!"range end index {stop} out of range for slice of length {len}"
  else .value ((data.drop start).take (stop - start))

/-- `data[start..stop].copy_from_slice(bytes)`. -/
def copyFromSlice (data : List UInt8) (start stop : Nat) (bytes : List UInt8) :
    Outcome (List UInt8) := do
  let target ← sliceRange data start stop
  if bytes.length ≠ target.length then
    .panic "copy_from_slice: source slice length does not match destination slice length"
  else .value (data.take start ++ (bytes ++ data.drop stop))

def addPadding (data : List UInt8) : List UInt8 :=
  data ++ List.replicate (computePadding data.length) 0

/-- `Ord::cmp` of byte slices. -/
def keyCmp (a b : Key) : Ordering :=
  cmp a b

/-- `a - b` of machine words. -/
def checkedSub (a b : Nat) : Outcome Nat :=
  if b ≤ a then .value (a - b) else .panic "attempt to subtract with overflow"

theorem u32_of_lt
    {n : Nat}
    (h : n < 2 ^ 32) :
    u32 n = n :=
  Nat.mod_eq_of_lt h

theorem checkedSub_of_le
    {a b : Nat}
    (h : b ≤ a) :
    checkedSub a b = .value (a - b) :=
  if_pos h

theorem sliceFrom_append
    {front back : List UInt8} {start : Nat}
    (hstart : front.length = start) :
    sliceFrom (front ++ back) start = .value back := by
  subst hstart
  rw [sliceFrom, if_pos (by simp), List.drop_left]

theorem sliceRange_append
    {front part back : List UInt8} {start stop : Nat}
    (hstart : front.length = start)
    (hstop : start + part.length = stop) :
    sliceRange (front ++ (part ++ back)) start stop = .value part := by
  subst hstart hstop
  rw [sliceRange, if_neg (by omega), if_neg (by simp), List.drop_left,
    Nat.add_sub_cancel_left, List.take_left]

theorem copyFromSlice_append
    {front part back bytes : List UInt8} {start stop : Nat}
    (hstart : front.length = start)
    (hstop : start + part.length = stop)
    (hbytes : bytes.length = part.length) :
    copyFromSlice (front ++ (part ++ back)) start stop bytes =
      .value (front ++ (bytes ++ back)) := by
  have hlength : (front ++ part).length = stop := by
    rw [List.length_append, hstart, hstop]
  rw [copyFromSlice, sliceRange_append hstart hstop, Outcome.value_bind,
    if_neg (not_not.mpr hbytes), List.take_left' hstart, ← List.append_assoc front part,
    List.drop_left' hlength]

theorem length_addPadding
    (data : List UInt8) :
    (addPadding data).length = padOffset data.length := by
  rw [addPadding, List.length_append, List.length_replicate, padOffset]

end LsmStore
