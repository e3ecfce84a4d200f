import Mathlib.Data.List.Basic
import Mathlib.Tactic.Linarith

/-! Integers in network order. -/

namespace TorrentPeer.BigEndian

def be32 (n : Nat) : List UInt8 :=
  [UInt8.ofNat (n / 2 ^ 24), UInt8.ofNat (n / 2 ^ 16), UInt8.ofNat (n / 2 ^ 8), UInt8.ofNat n]

def readBe32 (bytes : List UInt8) : Nat :=
  (bytes.getD 0 0).toNat * 2 ^ 24 + (bytes.getD 1 0).toNat * 2 ^ 16
    + (bytes.getD 2 0).toNat * 2 ^ 8 + (bytes.getD 3 0).toNat

def be16 (n : Nat) : List UInt8 := [UInt8.ofNat (n / 2 ^ 8), UInt8.ofNat n]

def be64 (n : Nat) : List UInt8 := be32 (n / 2 ^ 32) ++ be32 n

def readBe64 (bytes : List UInt8) : Nat := readBe32 bytes * 2 ^ 32 + readBe32 (bytes.drop 4)

@[simp] theorem be32_length (n : Nat) : (be32 n).length = 4 := rfl

theorem readBe32_append (n : Nat) (small : n < 2 ^ 32) (rest : List UInt8) :
    readBe32 (be32 n ++ rest) = n := by
  simp only [readBe32, be32, List.cons_append, List.nil_append, List.getD_cons_zero,
    List.getD_cons_succ, UInt8.toNat_ofNat']
  omega

theorem readBe32_be32 (n : Nat) (small : n < 2 ^ 32) : readBe32 (be32 n) = n := by
  have whole := readBe32_append n small []
  rw [List.append_nil] at whole
  exact whole

theorem be32_readBe32 {bytes : List UInt8} (whole : 4 ≤ bytes.length) :
    be32 (readBe32 bytes) = bytes.take 4 := by
  match bytes, whole with
  | first :: second :: third :: fourth :: rest, _ =>
    have one := first.toNat_lt
    have two := second.toNat_lt
    have three := third.toNat_lt
    have four := fourth.toNat_lt
    simp only [be32, readBe32, List.getD_cons_zero, List.getD_cons_succ, List.take_succ_cons, List.take_zero,
      List.cons.injEq, and_true, ← UInt8.toNat_inj, UInt8.toNat_ofNat']
    omega

theorem readBe32_bound (bytes : List UInt8) : readBe32 bytes < 2 ^ 32 := by
  have first := (bytes.getD 0 0).toNat_lt
  have second := (bytes.getD 1 0).toNat_lt
  have third := (bytes.getD 2 0).toNat_lt
  have fourth := (bytes.getD 3 0).toNat_lt
  rw [readBe32]
  omega

theorem readBe64_append (n : Nat) (small : n < 2 ^ 64) (rest : List UInt8) :
    readBe64 (be64 n ++ rest) = n := by
  have high : n / 2 ^ 32 < 2 ^ 32 := by omega
  have skip : (be64 n ++ rest).drop 4 = be32 n ++ rest := rfl
  have wrapped : be32 n = be32 (n % 2 ^ 32) := by
    simp only [be32, List.cons.injEq, and_true, ← UInt8.toNat_inj, UInt8.toNat_ofNat']
    omega
  rw [readBe64, skip, be64, List.append_assoc, readBe32_append _ high, wrapped,
    readBe32_append _ (Nat.mod_lt _ (by decide))]
  omega

theorem readBe64_bound (bytes : List UInt8) : readBe64 bytes < 2 ^ 64 := by
  have high := readBe32_bound bytes
  have low := readBe32_bound (bytes.drop 4)
  rw [readBe64]
  omega

end TorrentPeer.BigEndian
