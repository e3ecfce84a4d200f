import TorrentPeer.Core.Bitfield
import Mathlib.Algebra.Order.Floor.Div
import Mathlib.Data.Finset.Basic
import Mathlib.GroupTheory.GroupAction.Ring

/-! A bitfield is a set of piece indices, in memory and on the wire. -/

namespace TorrentPeer.Bitfield

def bitAt (bytes : Bytes) (i : Nat) : Bool :=
  decide ((bytes.getD (i / 8) 0).toNat &&& (0x80 >>> (i % 8)) ≠ 0)

def setCall (field : Bitfield) (i : Nat) : Bitfield × Option Exn :=
  match field.set i with
  | .ok after => (after, none)
  | .error problem => (field, some problem)

/-- The two ways to build a field: the constructor, or `from_bytes` on a message. -/
def build (bits : Nat) : Option Bytes → Except Exn Bitfield
  | none => .ok (ofBits bits)
  | some raw => fromBytes raw bits

def setAll (field : Bitfield) (indices : List Nat) : Bitfield :=
  indices.foldl (fun field i => (field.setCall i).1) field

def putIn (bits : Nat) (source : Option Bytes) (indices : List Nat) : Finset Nat :=
  (Finset.range bits).filter (fun i => (source.any (fun raw => bitAt raw i)) = true ∨ i ∈ indices)

/-- The field holds exactly these pieces, each at its place on the wire, and no other bit is set. -/
structure Represents (field : Bitfield) (bits : Nat) (pieces : Finset Nat) : Prop where
  size : field.bits = bits
  width : field.bytes.length = bits ⌈/⌉ 8
  inside : ∀ i ∈ pieces, i < bits
  placed : ∀ i, bitAt field.bytes i = decide (i ∈ pieces)

section Bits

theorem mask_bit (byte position : Nat) (bound : position < 8) :
    decide (byte &&& (0x80 >>> position) ≠ 0) = byte.testBit (7 - position) := by
  have mask : 0x80 >>> position = 2 ^ (7 - position) := by
    have cases : ∀ k < 8, 0x80 >>> k = 2 ^ (7 - k) := by decide
    exact cases position bound
  rw [mask, Nat.and_two_pow]
  cases byte.testBit (7 - position) with
  | true => simp
  | false => simp

theorem bitAt_test (bytes : Bytes) (i : Nat) :
    bitAt bytes i = (bytes.getD (i / 8) 0).toNat.testBit (7 - i % 8) :=
  mask_bit _ _ (Nat.mod_lt i (by decide))

theorem get_bitAt (field : Bitfield) (i : Nat) (inside : i < field.bits) : field.get i = bitAt field.bytes i := by
  rw [get, if_neg (Nat.not_le.mpr inside), bitAt_test]

theorem bitAt_beyond (bytes : Bytes) (i : Nat) (beyond : bytes.length ≤ i / 8) : bitAt bytes i = false := by
  rw [bitAt_test, List.getD_eq_default _ _ beyond]
  exact Nat.zero_testBit _

theorem bitAt_zeros (count i : Nat) : bitAt (List.replicate count 0) i = false := by
  by_cases inside : i / 8 < count
  · simp [bitAt_test, inside]
  · apply bitAt_beyond
    rw [List.length_replicate]
    exact Nat.le_of_not_lt inside

theorem byteCount_ceil (bits : Nat) (few : bits < 2 ^ 32 - 7) : byteCount bits = bits ⌈/⌉ 8 := by
  rw [byteCount, Nat.mod_eq_of_lt (by omega), Nat.ceilDiv_eq_add_pred_div]
  rfl

theorem mask_zero (byte spare : Nat) :
    byte &&& (1 <<< spare - 1) = 0 ↔ ∀ position < spare, byte.testBit position = false := by
  rw [Nat.one_shiftLeft, Nat.and_two_pow_sub_one_eq_mod]
  constructor
  · intro zero position low
    have bit := congrArg (fun n => n.testBit position) zero
    simpa [Nat.testBit_mod_two_pow, low] using bit
  · intro clear
    apply Nat.eq_of_testBit_eq
    intro position
    rw [Nat.testBit_mod_two_pow, Nat.zero_testBit]
    by_cases low : position < spare
    · rw [clear position low, Bool.and_false]
    · simp [low]

theorem ceil_bounds (bits : Nat) : bits ≤ 8 * (bits ⌈/⌉ 8) ∧ 8 * (bits ⌈/⌉ 8) < bits + 8 := by
  have ceil : bits ⌈/⌉ 8 = (bits + 7) / 8 := Nat.ceilDiv_eq_add_pred_div bits 8
  omega

theorem last_byte (raw : Bytes) : raw.getLastD 0 = raw.getD (raw.length - 1) 0 := by
  rw [List.getLastD_eq_getLast?, List.getLast?_eq_getElem?, List.getD_eq_getElem?_getD]

theorem spare_clear (raw : Bytes) (bits : Nat) (width : raw.length = bits ⌈/⌉ 8) :
    (∀ position < raw.length * 8 - bits, (raw.getLastD 0).toNat.testBit position = false) ↔
      ∀ i, bits ≤ i → i < 8 * raw.length → bitAt raw i = false := by
  have bounds := ceil_bounds bits
  rw [← width] at bounds
  constructor
  · intro clear i outside inside
    have byte : i / 8 = raw.length - 1 := by omega
    have low := clear (7 - i % 8) (by omega)
    rw [bitAt_test, byte, ← last_byte]
    exact low
  · intro clear position low
    have free := clear (8 * raw.length - 1 - position) (by omega) (by omega)
    have byte : (8 * raw.length - 1 - position) / 8 = raw.length - 1 := by omega
    have place : 7 - (8 * raw.length - 1 - position) % 8 = position := by omega
    rw [bitAt_test, byte, place, ← last_byte] at free
    exact free

end Bits

section Wire

variable {bits : Nat} (few : bits < 2 ^ 32 - 7) (raw : Bytes)

include few

theorem fromBytes_iff : fromBytes raw bits = .ok ⟨bits, raw⟩ ↔
    raw.length = bits ⌈/⌉ 8 ∧ ∀ i, bits ≤ i → i < 8 * raw.length → bitAt raw i = false := by
  by_cases width : raw.length = bits ⌈/⌉ 8
  · have bounds := ceil_bounds bits
    rw [← width] at bounds
    have spare : (raw.length * 8 + 2 ^ 32 - bits) % 2 ^ 32 = raw.length * 8 - bits := by omega
    rw [← spare_clear raw bits width, ← mask_zero, fromBytes, byteCount_ceil bits few, if_neg (not_not.mpr width)]
    dsimp only
    rw [spare]
    constructor
    · intro accepted
      refine ⟨width, ?_⟩
      by_contra set
      have positive : 0 < raw.length * 8 - bits := by
        apply Nat.pos_of_ne_zero
        intro none_spare
        rw [none_spare] at set
        exact set (Nat.and_zero _)
      rw [if_pos ⟨positive, set⟩] at accepted
      cases accepted
    · intro clear
      rw [if_neg (fun marked => marked.2 clear.2)]
  · constructor
    · intro accepted
      rw [fromBytes, byteCount_ceil bits few, if_pos width] at accepted
      cases accepted
    · intro clear
      exact absurd clear.1 width

theorem Represents.round_trip {field : Bitfield} {pieces : Finset Nat} (represents : Represents field bits pieces) :
    fromBytes field.bytes bits = .ok field := by
  have shape : field = ⟨bits, field.bytes⟩ := by rw [← represents.size]
  have accepted := (fromBytes_iff few field.bytes).mpr ⟨represents.width, ?_⟩
  · rw [accepted, ← shape]
  · intro i outside inside
    rw [represents.placed]
    apply decide_eq_false
    intro member
    exact absurd (represents.inside i member) (Nat.not_lt.mpr outside)

end Wire

section Calls

variable {field : Bitfield} {bits : Nat} {pieces : Finset Nat}

theorem Represents.get (represents : Represents field bits pieces) (i : Nat) :
    field.get i = decide (i ∈ pieces) := by
  by_cases inside : i < bits
  · rw [get_bitAt field i (by rw [represents.size]; exact inside), represents.placed]
  · rw [get_outside field i (by rw [represents.size]; exact Nat.le_of_not_lt inside)]
    symm
    apply decide_eq_false
    intro member
    exact inside (represents.inside i member)

theorem Represents.refused (represents : Represents field bits pieces) (i : Nat) (outside : bits ≤ i) :
    field.setCall i = (field, some (.outOfRange (ascii "bitfield index"))) := by
  have thrown : field.set i = .error (.outOfRange (ascii "bitfield index")) := by
    rw [set, if_pos (by rw [represents.size]; exact outside)]
  rw [setCall, thrown]

theorem Represents.gain (few : bits < 2 ^ 32 - 7) (represents : Represents field bits pieces) (i : Nat)
    (inside : i < bits) :
    ∃ after, field.setCall i = (after, none) ∧ Represents after bits (insert i pieces) := by
  have width : field.bytes.length = byteCount field.bits := by
    rw [represents.size, byteCount_ceil bits few]
    exact represents.width
  obtain ⟨after, stored⟩ := set_succeeds field i (by rw [represents.size]; exact inside) width
    (by rw [represents.size]; omega)
  have sizes := set_bits field after i stored
  refine ⟨after, by rw [setCall, stored], ?_⟩
  constructor
  · exact sizes.1.trans represents.size
  · exact sizes.2.2.trans represents.width
  · intro j member
    rcases Finset.mem_insert.mp member with new | old
    · rw [new]
      exact inside
    · exact represents.inside j old
  · intro j
    have before := represents.placed j
    rw [bitAt_test] at before
    rw [bitAt_test, set_testBit field after i j stored, before]
    simp

theorem build_represents (few : bits < 2 ^ 32 - 7) (source : Option Bytes) (built : build bits source = .ok field) :
    Represents field bits (putIn bits source []) := by
  cases source with
  | none =>
    have same := Except.ok.inj built
    subst same
    constructor
    · rfl
    · rw [ofBits, List.length_replicate]
      exact byteCount_ceil bits few
    · intro i member
      exact Finset.mem_range.mp (Finset.mem_filter.mp member).1
    · intro i
      rw [ofBits, bitAt_zeros]
      simp [putIn]
  | some raw =>
    have same := fromBytes_ok raw bits field built
    subst same
    obtain ⟨width, clear⟩ := (fromBytes_iff few raw).mp built
    constructor
    · rfl
    · exact width
    · intro i member
      exact Finset.mem_range.mp (Finset.mem_filter.mp member).1
    · intro i
      by_cases inside : i < bits
      · simp [putIn, inside]
      · have free : bitAt raw i = false := by
          by_cases spare : i < 8 * raw.length
          · exact clear i (Nat.le_of_not_lt inside) spare
          · exact bitAt_beyond raw i (by omega)
        rw [free]
        simp [putIn, inside]

theorem Represents.call (few : bits < 2 ^ 32 - 7) {source : Option Bytes} {indices : List Nat}
    (represents : Represents field bits (putIn bits source indices)) (i : Nat) :
    Represents (field.setCall i).1 bits (putIn bits source (indices ++ [i])) := by
  by_cases inside : i < bits
  · obtain ⟨after, called, grown⟩ := represents.gain few i inside
    have pieces : insert i (putIn bits source indices) = putIn bits source (indices ++ [i]) := by
      ext j
      simp only [putIn, Finset.mem_insert, Finset.mem_filter, Finset.mem_range, List.mem_append, List.mem_singleton]
      grind
    rw [called, ← pieces]
    exact grown
  · have pieces : putIn bits source indices = putIn bits source (indices ++ [i]) := by
      ext j
      simp only [putIn, Finset.mem_filter, Finset.mem_range, List.mem_append, List.mem_singleton]
      grind
    rw [represents.refused i (Nat.le_of_not_lt inside), ← pieces]
    exact represents

theorem setAll_represents (few : bits < 2 ^ 32 - 7) (source : Option Bytes) (built : build bits source = .ok field)
    (indices : List Nat) : Represents (field.setAll indices) bits (putIn bits source indices) := by
  -- the calls are taken from the last one back, so that `putIn` grows by the call at hand
  induction indices using List.reverseRecOn with
  | nil => exact build_represents few source built
  | append_singleton indices i ih =>
    have last : field.setAll (indices ++ [i]) = ((field.setAll indices).setCall i).1 := by
      rw [setAll, List.foldl_append]
      rfl
    rw [last]
    exact ih.call few i

end Calls

/-- Every field that the constructor or `from_bytes` builds is, after any calls of `set`, exactly the set
of the indices put in, bit by bit on the wire; `from_bytes` accepts exactly the payloads of the right
length whose spare bits are zero, and inverts `bytes`. -/
theorem bitfield_is_set (bits : Nat) (few : bits < 2 ^ 32 - 7) :
    (∀ source first indices, build bits source = .ok first →
      Represents (first.setAll indices) bits (putIn bits source indices) ∧
      (∀ i, (first.setAll indices).get i = decide (i ∈ putIn bits source indices)) ∧
      (∀ i, bits ≤ i → bitAt (first.setAll indices).bytes i = false) ∧
      (∀ i, i < bits → ∃ after, (first.setAll indices).setCall i = (after, none) ∧ after.bits = bits ∧
        bitAt after.bytes i = true ∧ ∀ j, j ≠ i → bitAt after.bytes j = bitAt (first.setAll indices).bytes j) ∧
      (∀ i, bits ≤ i → (first.setAll indices).setCall i =
        (first.setAll indices, some (.outOfRange (ascii "bitfield index")))) ∧
      fromBytes (first.setAll indices).bytes bits = .ok (first.setAll indices)) ∧
    ∀ raw, ((∃ field, fromBytes raw bits = .ok field) ↔
        raw.length = bits ⌈/⌉ 8 ∧ ∀ i, bits ≤ i → i < 8 * raw.length → bitAt raw i = false) ∧
      ∀ field, fromBytes raw bits = .ok field → field.bytes = raw := by
  constructor
  · intro source first indices built
    have represents := setAll_represents few source built indices
    refine ⟨represents, represents.get, ?_, ?_, represents.refused, represents.round_trip few⟩
    · intro i outside
      rw [represents.placed]
      apply decide_eq_false
      intro member
      exact absurd (represents.inside i member) (Nat.not_lt.mpr outside)
    · intro i inside
      obtain ⟨after, called, grown⟩ := represents.gain few i inside
      refine ⟨after, called, grown.size, ?_, ?_⟩
      · rw [grown.placed]
        exact decide_eq_true (Finset.mem_insert_self _ _)
      · intro j different
        rw [grown.placed, represents.placed]
        simp [different]
  · intro raw
    constructor
    · rw [← fromBytes_iff few raw]
      constructor
      · intro accepted
        obtain ⟨field, parsed⟩ := accepted
        have same := fromBytes_ok raw bits field parsed
        rw [← same]
        exact parsed
      · intro accepted
        exact ⟨_, accepted⟩
    · intro field parsed
      rw [fromBytes_ok raw bits field parsed]

/-- Ten pieces, of which a message names three and `set` adds one. -/
theorem bitfield_is_set_ten_pieces :
    (10 : Nat) < 2 ^ 32 - 7 ∧ build 10 (some [0x81, 0x40]) = .ok ⟨10, [0x81, 0x40]⟩ ∧
      putIn 10 (some [0x81, 0x40]) [2, 12] = {0, 2, 7, 9} ∧
      Represents ((⟨10, [0x81, 0x40]⟩ : Bitfield).setAll [2, 12]) 10 {0, 2, 7, 9} := by
  have pieces : putIn 10 (some [0x81, 0x40]) [2, 12] = {0, 2, 7, 9} := by decide
  have built : build 10 (some [0x81, 0x40]) = .ok ⟨10, [0x81, 0x40]⟩ := by decide
  refine ⟨by decide, built, pieces, ?_⟩
  rw [← pieces]
  exact ((bitfield_is_set 10 (by decide)).1 _ _ [2, 12] built).1

end TorrentPeer.Bitfield
