import TorrentPeer.Lib.BigEndian

/-! A buffer of which only the first bytes were written, and reads that fail past them. -/

namespace TorrentPeer

structure Window where
  buffer : List UInt8
  size : Nat
  fits : size ≤ buffer.length

namespace Window

variable (w : Window)

def bytes : List UInt8 := w.buffer.take w.size

def byteAt (i : Nat) : Option UInt8 := if i < w.size then w.buffer[i]? else none

def readBe16 (off : Nat) : Option Nat := do
  let high ← w.byteAt off
  let low ← w.byteAt (off + 1)
  some (high.toNat * 2 ^ 8 + low.toNat)

def readBe32 (off : Nat) : Option Nat := do
  let first ← w.byteAt off
  let second ← w.byteAt (off + 1)
  let third ← w.byteAt (off + 2)
  let fourth ← w.byteAt (off + 3)
  some (first.toNat * 2 ^ 24 + second.toNat * 2 ^ 16 + third.toNat * 2 ^ 8 + fourth.toNat)

def slice (off count : Nat) : Option (List UInt8) :=
  if off + count ≤ w.size then some ((w.buffer.drop off).take count) else none

theorem bytes_length : w.bytes.length = w.size := by
  rw [bytes, List.length_take]
  exact Nat.min_eq_left w.fits

variable {w}

theorem byteAt_inside {off : Nat} (j : Nat) (inside : off + j < w.size) :
    w.byteAt (off + j) = some ((w.bytes.drop off).getD j 0) := by
  have within : off + j < w.bytes.length := by
    rw [bytes_length]
    exact inside
  have same : w.bytes[off + j]? = w.buffer[off + j]? := by
    rw [bytes, List.getElem?_take, if_pos inside]
  rw [byteAt, if_pos inside, List.getD_eq_getElem?_getD, List.getElem?_drop, ← same, List.getElem?_eq_getElem within]
  rfl

theorem readBe16_inside {off : Nat} (inside : off + 2 ≤ w.size) :
    w.readBe16 off = some (((w.bytes.drop off).getD 0 0).toNat * 2 ^ 8 + ((w.bytes.drop off).getD 1 0).toNat) := by
  have high : w.byteAt off = _ := byteAt_inside 0 (by omega)
  rw [readBe16, high, byteAt_inside 1 (by omega)]
  rfl

theorem readBe32_inside {off : Nat} (inside : off + 4 ≤ w.size) :
    w.readBe32 off = some (BigEndian.readBe32 (w.bytes.drop off)) := by
  have first : w.byteAt off = _ := byteAt_inside 0 (by omega)
  rw [readBe32, first, byteAt_inside 1 (by omega), byteAt_inside 2 (by omega), byteAt_inside 3 (by omega)]
  rfl

theorem slice_inside {off count : Nat} (inside : off + count ≤ w.size) :
    w.slice off count = some ((w.bytes.drop off).take count) := by
  rw [slice, if_pos inside, bytes, List.drop_take, List.take_take, Nat.min_eq_left (by omega)]

end Window

end TorrentPeer
