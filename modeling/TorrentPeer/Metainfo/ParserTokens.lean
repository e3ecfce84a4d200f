import TorrentPeer.Metainfo.Parser
import Mathlib.Data.List.TakeWhile

/-! The leaves of the grammar: strings and integers. Positions are read through
`remaining`, the input from the cursor on. Soundness says which bytes a successful
call consumed, completeness that those bytes are enough to succeed. -/

namespace TorrentPeer.BencodeParser

open Splice Bencode

def remaining (data : Bytes) (pos : Nat) : Bytes := data.drop pos

theorem remaining_get (data : Bytes) (pos offset : Nat) :
    (remaining data pos)[offset]? = data[pos + offset]? := by
  simp [remaining]

theorem remaining_head (data : Bytes) (pos : Nat) :
    data[pos]? = (remaining data pos).head? := by
  rw [List.head?_eq_getElem?, remaining_get, Nat.add_zero]

theorem remaining_advance (data front rest : Bytes) (pos : Nat)
    (split : remaining data pos = front ++ rest) :
    remaining data (pos + front.length) = rest := by
  rw [remaining, ← List.drop_drop]
  change (remaining data pos).drop front.length = rest
  rw [split, List.drop_left]

theorem remaining_cons (data : Bytes) (pos : Nat) (byte : UInt8) (located : data[pos]? = some byte) :
    remaining data pos = byte :: remaining data (pos + 1) := by
  rw [remaining_head] at located
  obtain ⟨tail, shape⟩ := List.head?_eq_some_iff.mp located
  have advanced := remaining_advance data [byte] tail pos shape
  rw [List.length_singleton] at advanced
  rw [advanced, shape]

theorem remaining_slice (data front rest : Bytes) (pos : Nat)
    (split : remaining data pos = front ++ rest) : slice data pos front.length = front := by
  change (remaining data pos).take front.length = front
  rw [split, List.take_left]

theorem digit_run (data : Bytes) (pos : Nat) :
    ∃ digits tail, remaining data pos = digits ++ tail ∧
      (∀ byte ∈ digits, Decimal.isDigit byte = true) ∧
      (∀ byte, tail.head? = some byte → Decimal.isDigit byte = false) ∧
      skipDigits data pos = pos + digits.length := by
  refine ⟨(remaining data pos).takeWhile Decimal.isDigit,
    (remaining data pos).dropWhile Decimal.isDigit, ?_, ?_, ?_, rfl⟩
  · rw [List.takeWhile_append_dropWhile]
  · intro byte member
    exact List.mem_takeWhile_imp member
  · intro byte first
    have stops := List.head?_dropWhile_not Decimal.isDigit (remaining data pos)
    rw [first] at stops
    simpa using stops

theorem skip_run (data digits tail : Bytes) (pos : Nat)
    (split : remaining data pos = digits ++ tail)
    (all : ∀ byte ∈ digits, Decimal.isDigit byte = true)
    (stop : ∀ byte, tail.head? = some byte → Decimal.isDigit byte = false) :
    skipDigits data pos = pos + digits.length := by
  rw [skipDigits]
  change pos + ((remaining data pos).takeWhile Decimal.isDigit).length = _
  rw [split, Decimal.takeWhile_digits digits tail all stop]

theorem numeral_run (data digits tail : Bytes) (pos : Nat) (stop : UInt8)
    (split : remaining data pos = digits ++ stop :: tail)
    (all : ∀ byte ∈ digits, Decimal.isDigit byte = true)
    (halts : Decimal.isDigit stop = false) :
    skipDigits data pos = pos + digits.length ∧ data[pos + digits.length]? = some stop ∧
      slice data pos digits.length = digits := by
  refine ⟨?_, ?_, remaining_slice data digits _ pos split⟩
  · apply skip_run data digits (stop :: tail) pos split all
    intro byte first
    rw [List.head?_cons, Option.some.injEq] at first
    exact first ▸ halts
  · rw [remaining_head, remaining_advance data digits _ pos split, List.head?_cons]

theorem run_head {data digits tail : Bytes} {pos : Nat} (split : remaining data pos = digits ++ tail)
    (nonempty : digits ≠ []) : data[pos]? = digits.head? := by
  rw [remaining_head, split, List.head?_append_of_ne_nil digits nonempty]

theorem numeral_checked {digits : Bytes} (nonempty : digits ≠ []) (all : ∀ byte ∈ digits, Decimal.isDigit byte = true)
    (leading : ¬ (digits.head? = some 48 ∧ 1 < digits.length)) : Decimal.Numeral digits := by
  refine ⟨nonempty, all, ?_⟩
  intro zero
  have positive := List.length_pos_iff.mpr nonempty
  by_contra several
  exact leading ⟨zero, by omega⟩

theorem numeral_leading {digits : Bytes} (numeral : Decimal.Numeral digits) :
    ¬ (digits.head? = some 48 ∧ 1 < digits.length) := by
  intro both
  have single := numeral.2.2 both.1
  omega

theorem readString_sound (data : Bytes) (state after : State) (text : Bytes)
    (parsed : readString data state = .ok (text, after)) :
    remaining data state.pos = encodeString text ++ remaining data after.pos ∧
      after = { state with pos := state.pos + (encodeString text).length } := by
  obtain ⟨digits, tail, split, all, -, skipped⟩ := digit_run data state.pos
  have token := remaining_slice data digits tail state.pos split
  have next := remaining_advance data digits tail state.pos split
  simp only [readString, skipped, Nat.add_sub_cancel_left, token] at parsed
  split at parsed
  · cases parsed
  rename_i stop located
  rw [remaining_head, next] at located
  obtain ⟨body, rfl⟩ := List.head?_eq_some_iff.mp located
  split at parsed
  · cases parsed
  rename_i colon
  simp only [ne_eq, not_not] at colon
  subst colon
  split at parsed
  · cases parsed
  rename_i some_digits
  split at parsed
  · cases parsed
  rename_i no_leading
  have nonempty : digits ≠ [] := by
    rintro rfl
    exact some_digits rfl
  rw [run_head split nonempty] at no_leading
  have numeral := numeral_checked nonempty all no_leading
  rw [Decimal.fromChars_unsigned digits _ nonempty all] at parsed
  split at parsed
  · simp at parsed
    cases parsed
  rename_i in_range
  simp only [if_false, ne_eq, not_true_eq_false, or_self, reduceCtorEq,
    Int.toNat_natCast] at parsed
  split at parsed
  · cases parsed
  rename_i fits
  have outcome := Except.ok.inj parsed
  rw [Prod.mk.injEq] at outcome
  obtain ⟨text_eq, after_eq⟩ := outcome
  have total : state.pos + digits.length + 1 + body.length = data.length := by
    have length := congrArg List.length split
    simp only [remaining, List.length_drop, List.length_append, List.length_cons] at length
    have inside : 0 < data.length - state.pos := by omega
    omega
  have body_at : remaining data (state.pos + digits.length + 1) = body := by
    have step := remaining_advance data (digits ++ [58]) body state.pos (by simpa using split)
    rw [List.length_append, List.length_singleton, ← Nat.add_assoc] at step
    exact step
  have text_is : text = body.take (Decimal.value digits) := by
    rw [← text_eq, ← body_at]
    rfl
  have text_length : text.length = Decimal.value digits := by
    rw [text_is, List.length_take]
    omega
  have encoded : encodeString text = digits ++ 58 :: text := by
    rw [encodeString, text_length, Decimal.render_value digits numeral]
  have width : (encodeString text).length = digits.length + 1 + Decimal.value digits := by
    rw [encoded, List.length_append, List.length_cons, text_length]
    omega
  have after_is : after = { state with pos := state.pos + (encodeString text).length } := by
    rw [← after_eq, width]
    simp only [Nat.add_assoc]
  refine ⟨?_, after_is⟩
  have rest_at : remaining data after.pos = body.drop (Decimal.value digits) := by
    rw [after_is, width, ← body_at]
    simp only [remaining, List.drop_drop, Nat.add_assoc]
  rw [rest_at, encoded, split, text_is]
  simp only [List.append_assoc, List.cons_append, List.take_append_drop]

theorem readString_complete (data text rest : Bytes) (state : State)
    (small : data.length < 2 ^ 64)
    (split : remaining data state.pos = encodeString text ++ rest) :
    readString data state =
      .ok (text, { state with pos := state.pos + (encodeString text).length }) := by
  have numeral := Decimal.render_numeral text.length
  have layout : remaining data state.pos =
      Decimal.render text.length ++ 58 :: (text ++ rest) := by
    rw [split, encodeString, List.append_assoc, List.cons_append]
  obtain ⟨skipped, stop, token⟩ := numeral_run data (Decimal.render text.length) (text ++ rest)
    state.pos 58 layout numeral.2.1 (by decide)
  have total : state.pos + (Decimal.render text.length).length + 1 + (text ++ rest).length =
      data.length := by
    have length := congrArg List.length layout
    simp only [remaining, List.length_drop, List.length_append, List.length_cons] at length ⊢
    omega
  have positive := List.length_pos_iff.mpr numeral.1
  have leading : ¬ (data[state.pos]? = some 48 ∧ 1 < (Decimal.render text.length).length) := by
    rw [run_head layout numeral.1]
    exact numeral_leading numeral
  have bound : ¬ (2 ^ 64 - 1 < (text.length : Int)) := by
    rw [List.length_append] at total
    omega
  have body_at : slice data (state.pos + (Decimal.render text.length).length + 1) text.length =
      text := by
    have step := remaining_advance data (Decimal.render text.length ++ [58]) (text ++ rest)
      state.pos (by simpa using layout)
    rw [List.length_append, List.length_singleton, ← Nat.add_assoc] at step
    exact remaining_slice data text rest _ step
  have fits : ¬ (data.length - (state.pos + (Decimal.render text.length).length + 1) <
      text.length) := by
    rw [List.length_append] at total
    omega
  simp only [readString, skipped, Nat.add_sub_cancel_left, stop, token, ne_eq, not_true_eq_false,
    if_false, Nat.ne_of_gt positive, leading, Decimal.fromChars_unsigned _ _ numeral.1 numeral.2.1,
    Decimal.value_render, bound, reduceCtorEq, or_self, Int.toNat_natCast, fits, body_at]
  congr 3
  rw [encodeString, List.length_append, List.length_cons]
  omega

theorem encodeInt_token (value : Int) :
    encodeInt value = 105 :: (Decimal.signedToken (decide (value < 0))
      (Decimal.render value.natAbs) ++ [101]) := by
  simp [encodeInt, Decimal.signedToken]

theorem signedValue_render (value : Int) :
    Decimal.signedValue (decide (value < 0)) (Decimal.render value.natAbs) = value := by
  rw [Decimal.signedValue, Decimal.value_render]
  by_cases negative : value < 0
  · simp only [negative, decide_true, if_true]
    omega
  · simp only [negative, decide_false, Bool.false_eq_true, if_false]
    omega

theorem signed_canonical (negative : Bool) (digits : Bytes) (numeral : Decimal.Numeral digits)
    (nonzero : digits.head? = some 48 → negative = false) :
    encodeInt (Decimal.signedValue negative digits) =
      105 :: (Decimal.signedToken negative digits ++ [101]) := by
  have rendered := Decimal.render_value digits numeral
  rw [encodeInt_token]
  cases negative with
  | false =>
    have sign : ¬ (Decimal.value digits : Int) < 0 := by omega
    simp [Decimal.signedValue, Decimal.signedToken, sign, rendered]
  | true =>
    have positive := Decimal.value_positive digits numeral
      (fun zero => by cases nonzero zero)
    simp [Decimal.signedValue, Decimal.signedToken, positive, rendered]

def signWidth (negative : Bool) : Nat := if negative = true then 1 else 0

theorem signWidth_start (negative : Bool) (pos : Nat) :
    (if negative = true then pos + 1 else pos) = pos + signWidth negative := by
  cases negative <;> rfl

theorem signedToken_length (negative : Bool) (digits : Bytes) :
    (Decimal.signedToken negative digits).length = signWidth negative + digits.length := by
  cases negative <;> simp [Decimal.signedToken, signWidth, Nat.add_comm]

theorem signed_joined {data digits tail : Bytes} {pos : Nat} {negative : Bool}
    (sign : negative = decide (data[pos]? = some 45))
    (split : remaining data (pos + signWidth negative) = digits ++ tail) :
    remaining data pos = Decimal.signedToken negative digits ++ tail := by
  cases negative with
  | false => exact split
  | true =>
    rw [remaining_cons data pos 45 (of_decide_eq_true sign.symm)]
    exact congrArg (45 :: ·) split

theorem signed_apart {data digits tail : Bytes} {pos : Nat} {negative : Bool}
    (layout : remaining data pos = Decimal.signedToken negative digits ++ tail) :
    remaining data (pos + signWidth negative) = digits ++ tail := by
  cases negative with
  | false => exact layout
  | true => exact remaining_advance data [45] (digits ++ tail) pos layout

theorem signed_slice {data digits tail : Bytes} {pos : Nat} {negative : Bool}
    (layout : remaining data pos = Decimal.signedToken negative digits ++ tail) :
    slice data pos (pos + signWidth negative + digits.length - pos) = Decimal.signedToken negative digits := by
  have width : pos + signWidth negative + digits.length - pos = (Decimal.signedToken negative digits).length := by
    rw [signedToken_length]
    omega
  rw [width]
  exact remaining_slice data _ tail pos layout

theorem signed_sign {data digits tail : Bytes} {pos : Nat} {negative : Bool} (numeral : Decimal.Numeral digits)
    (layout : remaining data pos = Decimal.signedToken negative digits ++ tail) :
    decide (data[pos]? = some 45) = negative := by
  cases negative with
  | true =>
    rw [remaining_head, layout]
    rfl
  | false =>
    rw [run_head layout numeral.1, decide_eq_false_iff_not]
    intro dash
    have decimal := numeral.2.1 45 (List.mem_of_mem_head? dash)
    revert decimal
    decide

theorem parseInt_sound (data : Bytes) (state after : State) (result : BencodeValue)
    (opened : data[state.pos]? = some 105)
    (parsed : parseInt data state = .ok (result, after)) :
    ∃ value, result = .int value ∧ int64Min ≤ value ∧ value ≤ int64Max ∧
      remaining data state.pos = encodeInt value ++ remaining data after.pos ∧
      after = { state with pos := state.pos + (encodeInt value).length } := by
  have layout := remaining_cons data state.pos 105 opened
  obtain ⟨negative, sign⟩ : ∃ negative, negative = decide (data[state.pos + 1]? = some 45) := ⟨_, rfl⟩
  obtain ⟨digits, tail, split, all, -, skipped⟩ := digit_run data (state.pos + 1 + signWidth negative)
  have next := remaining_advance data digits tail _ split
  have inner := signed_joined sign split
  simp only [parseInt, ← sign, signWidth_start, skipped, Nat.add_sub_cancel_left, signed_slice inner] at parsed
  split at parsed
  · cases parsed
  rename_i stop located
  rw [remaining_head, next] at located
  obtain ⟨rest, rfl⟩ := List.head?_eq_some_iff.mp located
  split at parsed
  · cases parsed
  rename_i closing
  simp only [ne_eq, not_not] at closing
  subst closing
  split at parsed
  · cases parsed
  rename_i some_digits
  split at parsed
  · cases parsed
  rename_i no_leading
  have nonempty : digits ≠ [] := by
    rintro rfl
    exact some_digits rfl
  rw [run_head split nonempty] at no_leading
  have numeral := numeral_checked nonempty all (fun both => no_leading ⟨both.1, Or.inl both.2⟩)
  have nonzero : digits.head? = some 48 → negative = false := by
    intro zero
    by_contra minus
    exact no_leading ⟨zero, Or.inr (by simpa using minus)⟩
  rw [Decimal.fromChars_signed _ _ negative digits (by decide) nonempty all] at parsed
  split at parsed
  · simp at parsed
    cases parsed
  rename_i in_range
  simp only [if_false, ne_eq, not_true_eq_false, or_self, reduceCtorEq] at parsed
  have outcome := Except.ok.inj parsed
  rw [Prod.mk.injEq] at outcome
  obtain ⟨result_eq, after_eq⟩ := outcome
  have encoded := signed_canonical negative digits numeral nonzero
  have wide : (encodeInt (Decimal.signedValue negative digits)).length =
      1 + signWidth negative + digits.length + 1 := by
    rw [encoded, List.length_cons, List.length_append, signedToken_length, List.length_singleton]
    omega
  have after_is : after = { state with
      pos := state.pos + (encodeInt (Decimal.signedValue negative digits)).length } := by
    rw [← after_eq, wide]
    simp only [Nat.add_assoc]
  push Not at in_range
  refine ⟨Decimal.signedValue negative digits, result_eq.symm, in_range.1, in_range.2, ?_, after_is⟩
  have whole : remaining data state.pos =
      encodeInt (Decimal.signedValue negative digits) ++ rest := by
    rw [layout, inner, encoded]
    simp
  rw [whole, after_is, remaining_advance data _ rest state.pos whole]

theorem parseInt_complete (data rest : Bytes) (value : Int) (state : State)
    (low : int64Min ≤ value) (high : value ≤ int64Max)
    (split : remaining data state.pos = encodeInt value ++ rest) :
    parseInt data state =
      .ok (.int value, { state with pos := state.pos + (encodeInt value).length }) := by
  obtain ⟨negative, sign_is⟩ : ∃ negative, negative = decide (value < 0) := ⟨_, rfl⟩
  obtain ⟨digits, digits_is⟩ : ∃ digits, digits = Decimal.render value.natAbs := ⟨_, rfl⟩
  have numeral : Decimal.Numeral digits := digits_is ▸ Decimal.render_numeral value.natAbs
  have value_is : Decimal.signedValue negative digits = value := by
    rw [sign_is, digits_is, signedValue_render]
  have encoded : encodeInt value = 105 :: (Decimal.signedToken negative digits ++ [101]) := by
    rw [encodeInt_token, sign_is, digits_is]
  have inner_at : remaining data (state.pos + 1) =
      Decimal.signedToken negative digits ++ 101 :: rest := by
    apply remaining_advance data [105]
    rw [split, encoded]
    simp
  have positive := List.length_pos_iff.mpr numeral.1
  have digits_at := signed_apart inner_at
  obtain ⟨skipped, stop, -⟩ := numeral_run data digits rest _ 101 digits_at numeral.2.1 (by decide)
  have leading : ¬ (data[state.pos + 1 + signWidth negative]? = some 48 ∧
      (1 < digits.length ∨ negative = true)) := by
    rw [run_head digits_at numeral.1]
    rintro ⟨zero, several | minus⟩
    · exact numeral_leading numeral ⟨zero, several⟩
    · have value_zero : value.natAbs = 0 := Decimal.render_head _ (digits_is ▸ zero)
      rw [sign_is, decide_eq_true_eq] at minus
      omega
  have in_range : ¬ (value < int64Min ∨ int64Max < value) := by omega
  simp only [parseInt, signed_sign numeral inner_at, signWidth_start, skipped, Nat.add_sub_cancel_left, stop,
    signed_slice inner_at, ne_eq, not_true_eq_false, if_false, Nat.ne_of_gt positive, leading,
    Decimal.fromChars_signed int64Min int64Max negative digits (by decide) numeral.1 numeral.2.1,
    value_is, in_range, reduceCtorEq, or_self]
  congr 3
  rw [encoded, List.length_cons, List.length_append, signedToken_length, List.length_singleton]
  omega

end TorrentPeer.BencodeParser
