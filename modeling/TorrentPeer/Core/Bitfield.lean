import TorrentPeer.Core.Types
import Mathlib.Data.Nat.Bitwise

/-! One bit per piece, packed into bytes, most significant bit first. -/

namespace TorrentPeer

structure Bitfield where
  bits : Nat
  bytes : Bytes
  deriving DecidableEq, Repr

namespace Bitfield

def byteCount (bits : Nat) : Nat := (bits + 7) % 2 ^ 32 / 8

def ofBits (bits : Nat) : Bitfield := ⟨bits, List.replicate (byteCount bits) 0⟩

def fromBytes (raw : Bytes) (bits : Nat) : Except Exn Bitfield :=
  if raw.length ≠ byteCount bits then .error (.runtimeError (ascii "bitfield: wrong length"))
  else
    let spare := (raw.length * 8 + 2 ^ 32 - bits) % 2 ^ 32
    if 0 < spare ∧ (raw.getLastD 0).toNat &&& (1 <<< spare - 1) ≠ 0 then
      .error (.runtimeError (ascii "bitfield: spare bits set"))
    else .ok ⟨bits, raw⟩

def get (field : Bitfield) (i : Nat) : Bool :=
  if field.bits ≤ i then false else (field.bytes.getD (i / 8) 0).toNat.testBit (7 - i % 8)

def set (field : Bitfield) (i : Nat) : Except Exn Bitfield :=
  if field.bits ≤ i then .error (.outOfRange (ascii "bitfield index"))
  else match field.bytes[i / 8]? with
    -- only when (bits + 7) / 8 wrapped: the store lands outside the vector
    | none => .error (.undefined (ascii "bytes_[i / 8]"))
    | some byte =>
      .ok { field with bytes := field.bytes.set (i / 8) (byte ||| UInt8.ofNat (1 <<< (7 - i % 8))) }

theorem get_outside (field : Bitfield) (i : Nat) (outside : field.bits ≤ i) :
    field.get i = false := by
  simp [get, outside]

theorem get_inside (field : Bitfield) (i : Nat) (held : field.get i = true) : i < field.bits := by
  by_contra outside
  rw [get_outside field i (by omega)] at held
  cases held

@[simp] theorem get_ofBits (bits i : Nat) : (ofBits bits).get i = false := by
  by_cases inside : i / 8 < byteCount bits
  · simp [ofBits, get, inside]
  · simp [ofBits, get, inside]

theorem set_bit (byte : UInt8) (position other : Nat) (bound : position < 8) :
    (byte ||| UInt8.ofNat (1 <<< position)).toNat.testBit other =
      (decide (other = position) || byte.toNat.testBit other) := by
  have small : 2 ^ position < 256 := by
    calc 2 ^ position ≤ 2 ^ 7 := Nat.pow_le_pow_right (by decide) (by omega)
      _ < 256 := by decide
  have mask : (UInt8.ofNat (1 <<< position)).toNat = 2 ^ position := by
    rw [Nat.one_shiftLeft, UInt8.toNat_ofNat']
    exact Nat.mod_eq_of_lt small
  rw [UInt8.toNat_or, mask, Nat.testBit_or, Nat.testBit_two_pow, Bool.or_comm]
  simp only [eq_comm]

theorem set_bits (field after : Bitfield) (i : Nat) (stored : field.set i = .ok after) :
    after.bits = field.bits ∧ i < field.bits ∧ after.bytes.length = field.bytes.length := by
  unfold set at stored
  split at stored
  · cases stored
  · split at stored
    · cases stored
    · have result := Except.ok.inj stored
      subst result
      exact ⟨rfl, by omega, List.length_set⟩

theorem set_testBit (field after : Bitfield) (i j : Nat) (stored : field.set i = .ok after) :
    (after.bytes.getD (j / 8) 0).toNat.testBit (7 - j % 8) =
      (decide (j = i) || (field.bytes.getD (j / 8) 0).toNat.testBit (7 - j % 8)) := by
  unfold set at stored
  split at stored
  · cases stored
  · split at stored
    · cases stored
    · rename_i byte located
      have result := Except.ok.inj stored
      subst result
      by_cases sameByte : i / 8 = j / 8
      · have value : field.bytes.getD (j / 8) 0 = byte := by
          rw [← sameByte, List.getD_eq_getElem?_getD, located, Option.getD_some]
        have stored_at : (field.bytes.set (i / 8)
            (byte ||| UInt8.ofNat (1 <<< (7 - i % 8)))).getD (j / 8) 0 =
              byte ||| UInt8.ofNat (1 <<< (7 - i % 8)) := by
          have within : i / 8 < field.bytes.length := (List.getElem?_eq_some_iff.mp located).1
          rw [← sameByte, List.getD_eq_getElem?_getD, List.getElem?_set_self within,
            Option.getD_some]
        rw [stored_at, value, set_bit _ _ _ (by omega)]
        congr 1
        simp only [decide_eq_decide]
        omega
      · have different : j ≠ i := by
          rintro rfl
          exact sameByte rfl
        rw [List.getD_eq_getElem?_getD, List.getElem?_set_ne sameByte,
          ← List.getD_eq_getElem?_getD]
        simp [different]

theorem set_get (field after : Bitfield) (i j : Nat) (stored : field.set i = .ok after) :
    after.get j = (decide (j = i) || field.get j) := by
  have sizes := set_bits field after i stored
  by_cases outside : field.bits ≤ j
  · have different : j ≠ i := by omega
    rw [get_outside field j outside, get_outside after j (by rw [sizes.1]; exact outside)]
    simp [different]
  · rw [get, get, sizes.1, if_neg outside, if_neg outside]
    exact set_testBit field after i j stored

theorem set_succeeds (field : Bitfield) (i : Nat) (inside : i < field.bits)
    (width : field.bytes.length = byteCount field.bits) (few : field.bits + 7 < 2 ^ 32) :
    ∃ after, field.set i = .ok after := by
  have stored : i / 8 < field.bytes.length := by
    rw [width, byteCount, Nat.mod_eq_of_lt few]
    omega
  rw [set, if_neg (by omega), List.getElem?_eq_getElem stored]
  exact ⟨_, rfl⟩

theorem fromBytes_ok (raw : Bytes) (bits : Nat) (field : Bitfield)
    (parsed : fromBytes raw bits = .ok field) : field = ⟨bits, raw⟩ := by
  unfold fromBytes at parsed
  split at parsed
  · cases parsed
  · dsimp only at parsed
    split at parsed
    · cases parsed
    · exact (Except.ok.inj parsed).symm

end Bitfield

end TorrentPeer
