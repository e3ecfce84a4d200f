import Mathlib.Data.List.Induction
import Mathlib.Tactic.Linarith

/-! Decimal numerals as ASCII bytes: `std::to_string` and `std::from_chars`. -/

namespace TorrentPeer.Decimal

def isDigit (byte : UInt8) : Bool := decide (48 ≤ byte.toNat ∧ byte.toNat ≤ 57)

def digit (n : Nat) : UInt8 := UInt8.ofNat (48 + n % 10)

def value (digits : List UInt8) : Nat :=
  digits.foldl (fun total byte => total * 10 + (byte.toNat - 48)) 0

def renderFrom : Nat → Nat → List UInt8
  | 0, _ => []
  | fuel + 1, n => if n < 10 then [digit n] else renderFrom fuel (n / 10) ++ [digit n]

def render (n : Nat) : List UInt8 := renderFrom (n + 1) n

def Numeral (digits : List UInt8) : Prop :=
  digits ≠ [] ∧ (∀ byte ∈ digits, isDigit byte = true) ∧
    (digits.head? = some 48 → digits.length = 1)

theorem digit_toNat (n : Nat) : (digit n).toNat = 48 + n % 10 := by
  rw [digit, UInt8.toNat_ofNat', Nat.mod_eq_of_lt]
  omega

theorem isDigit_digit (n : Nat) : isDigit (digit n) = true := by
  rw [isDigit, decide_eq_true_eq, digit_toNat]
  omega

theorem digit_of_byte (byte : UInt8) (decimal : isDigit byte = true) (total : Nat) :
    digit (total * 10 + (byte.toNat - 48)) = byte := by
  rw [isDigit, decide_eq_true_eq] at decimal
  apply UInt8.toNat_inj.mp
  rw [digit_toNat]
  omega

theorem renderFrom_fuel (fuel n : Nat) (enough : n < fuel) : renderFrom fuel n = render n := by
  induction fuel using Nat.strongRecOn generalizing n with
  | _ fuel ih =>
    cases fuel with
    | zero => omega
    | succ fuel =>
      rw [render, renderFrom, renderFrom]
      by_cases small : n < 10
      · rw [if_pos small, if_pos small]
      · have shrinks : n / 10 < n := Nat.div_lt_self (by omega) (by decide)
        rw [if_neg small, if_neg small, ih fuel (by omega) (n / 10) (by omega)]
        by_cases same : n = fuel
        · rw [same, ih fuel (by omega) (fuel / 10) (by omega)]
        · rw [ih n (by omega) (n / 10) (by omega)]

theorem render_small (n : Nat) (small : n < 10) : render n = [digit n] := by
  rw [render, renderFrom, if_pos small]

theorem render_large (n : Nat) (large : 10 ≤ n) : render n = render (n / 10) ++ [digit n] := by
  have shrinks : n / 10 < n := Nat.div_lt_self (by omega) (by decide)
  rw [render, renderFrom, if_neg (by omega), renderFrom_fuel n (n / 10) shrinks]

theorem value_append (digits : List UInt8) (byte : UInt8) :
    value (digits ++ [byte]) = value digits * 10 + (byte.toNat - 48) := by
  simp [value, List.foldl_append]

theorem value_render (n : Nat) : value (render n) = n := by
  induction n using Nat.strongRecOn with
  | _ n ih =>
    by_cases small : n < 10
    · rw [render_small n small]
      simp only [value, List.foldl_cons, List.foldl_nil, digit_toNat]
      omega
    · have shrinks : n / 10 < n := Nat.div_lt_self (by omega) (by decide)
      rw [render_large n (by omega), value_append, ih (n / 10) shrinks, digit_toNat]
      omega

theorem render_digits (n : Nat) : ∀ byte ∈ render n, isDigit byte = true := by
  induction n using Nat.strongRecOn with
  | _ n ih =>
    by_cases small : n < 10
    · rw [render_small n small]
      intro byte member
      rw [List.mem_singleton.mp member]
      exact isDigit_digit n
    · have shrinks : n / 10 < n := Nat.div_lt_self (by omega) (by decide)
      rw [render_large n (by omega)]
      intro byte member
      rcases List.mem_append.mp member with front | last
      · exact ih (n / 10) shrinks byte front
      · rw [List.mem_singleton.mp last]
        exact isDigit_digit n

theorem render_nonempty (n : Nat) : render n ≠ [] := by
  by_cases small : n < 10
  · rw [render_small n small]
    exact List.cons_ne_nil _ _
  · rw [render_large n (by omega)]
    simp

theorem render_head (n : Nat) (zero : (render n).head? = some 48) : n = 0 := by
  induction n using Nat.strongRecOn with
  | _ n ih =>
    by_cases small : n < 10
    · rw [render_small n small, List.head?_cons, Option.some.injEq] at zero
      have code := congrArg UInt8.toNat zero
      rw [digit_toNat] at code
      have literal : (48 : UInt8).toNat = 48 := rfl
      omega
    · have shrinks : n / 10 < n := Nat.div_lt_self (by omega) (by decide)
      rw [render_large n (by omega), List.head?_append, Option.or_of_isSome (by
        rw [List.isSome_head?]
        simpa using render_nonempty (n / 10))] at zero
      have quotient := ih (n / 10) shrinks zero
      omega

theorem render_numeral (n : Nat) : Numeral (render n) := by
  refine ⟨render_nonempty n, render_digits n, ?_⟩
  intro zero
  rw [render_head n zero]
  rfl

theorem value_positive (digits : List UInt8) (numeral : Numeral digits)
    (nonzero : digits.head? ≠ some 48) : 0 < value digits := by
  obtain ⟨nonempty, all, -⟩ := numeral
  induction digits using List.reverseRecOn with
  | nil => exact absurd rfl nonempty
  | append_singleton front last ih =>
    rw [value_append]
    cases front with
    | nil =>
      have decimal := all last (by simp)
      rw [isDigit, decide_eq_true_eq] at decimal
      have different : last.toNat ≠ 48 := by
        intro same
        apply nonzero
        simp only [List.nil_append, List.head?_cons, Option.some.injEq]
        exact UInt8.toNat_inj.mp same
      omega
    | cons head tail =>
      have front_positive := ih (by simpa using nonzero) (by simp)
        (fun byte member => all byte (List.mem_append_left _ member))
      omega

theorem render_value (digits : List UInt8) (numeral : Numeral digits) :
    render (value digits) = digits := by
  induction digits using List.reverseRecOn with
  | nil => exact absurd rfl numeral.1
  | append_singleton front last ih =>
    obtain ⟨nonempty, all, single⟩ := numeral
    have decimal := all last (by simp)
    have byte_range := decimal
    rw [isDigit, decide_eq_true_eq] at byte_range
    rw [value_append]
    cases front with
    | nil =>
      rw [render_small _ (by simp [value]; omega), digit_of_byte last decimal]
      rfl
    | cons head tail =>
      have nonzero : (head :: tail).head? ≠ some 48 := by
        intro zero
        have length := single (by simpa using zero)
        simp at length
      have front_numeral : Numeral (head :: tail) := by
        refine ⟨by simp, fun byte member => all byte (List.mem_append_left _ member), ?_⟩
        intro zero
        exact absurd zero nonzero
      have positive := value_positive _ front_numeral nonzero
      have quotient : (value (head :: tail) * 10 + (last.toNat - 48)) / 10 =
          value (head :: tail) := by omega
      rw [render_large _ (by omega), quotient, ih front_numeral, digit_of_byte last decimal]

inductive Errc where
  | ok
  | invalidArgument
  | resultOutOfRange
  deriving DecidableEq, Repr

structure FromChars where
  ptr : Nat
  ec : Errc
  value : Int
  deriving DecidableEq, Repr

/-- `std::from_chars` for an integer type with the given range: a minus sign is read
only for a signed type, then the longest run of digits. -/
def fromChars (low high : Int) (token : List UInt8) : FromChars :=
  let signed := decide (low < 0 ∧ token.head? = some 45)
  let sign := if signed then 1 else 0
  let digits := (token.drop sign).takeWhile isDigit
  if digits = [] then ⟨0, .invalidArgument, 0⟩
  else
    let number : Int := if signed then -(value digits : Int) else value digits
    if number < low ∨ high < number then ⟨sign + digits.length, .resultOutOfRange, 0⟩
    else ⟨sign + digits.length, .ok, number⟩

theorem takeWhile_digits (digits rest : List UInt8) (all : ∀ byte ∈ digits, isDigit byte = true)
    (stop : ∀ byte, rest.head? = some byte → isDigit byte = false) :
    (digits ++ rest).takeWhile isDigit = digits := by
  rw [List.takeWhile_append_of_pos all]
  cases rest with
  | nil => simp
  | cons head tail =>
    have halts := stop head rfl
    simp [halts]

theorem fromChars_unsigned (digits : List UInt8) (high : Int) (nonempty : digits ≠ [])
    (all : ∀ byte ∈ digits, isDigit byte = true) :
    fromChars 0 high digits =
      if high < (value digits : Int) then ⟨digits.length, .resultOutOfRange, 0⟩
      else ⟨digits.length, .ok, value digits⟩ := by
  have run : digits.takeWhile isDigit = digits := by
    simpa using takeWhile_digits digits [] all (by simp)
  have nonnegative : ¬ ((value digits : Int) < 0) := by omega
  simp [fromChars, run, nonempty, nonnegative]

theorem fromChars_render {n : Nat} {high : Int} (low : (n : Int) ≤ high) :
    fromChars 0 high (render n) = ⟨(render n).length, .ok, n⟩ := by
  rw [fromChars_unsigned (render n) high (render_nonempty n) (render_digits n), value_render,
    if_neg (Int.not_lt.mpr low)]

def signedToken (negative : Bool) (digits : List UInt8) : List UInt8 :=
  (if negative then [45] else []) ++ digits

def signedValue (negative : Bool) (digits : List UInt8) : Int :=
  if negative then -(value digits : Int) else value digits

theorem fromChars_signed (low high : Int) (negative : Bool) (digits : List UInt8)
    (signed : low < 0) (nonempty : digits ≠ []) (all : ∀ byte ∈ digits, isDigit byte = true) :
    fromChars low high (signedToken negative digits) =
      if signedValue negative digits < low ∨ high < signedValue negative digits then
        ⟨(signedToken negative digits).length, .resultOutOfRange, 0⟩
      else ⟨(signedToken negative digits).length, .ok, signedValue negative digits⟩ := by
  have run : digits.takeWhile isDigit = digits := by
    simpa using takeWhile_digits digits [] all (by simp)
  cases negative with
  | true => simp [fromChars, signedToken, signedValue, signed, run, nonempty, Nat.add_comm]
  | false =>
    have unsigned : digits.head? ≠ some 45 := by
      intro minus
      have decimal := all 45 (List.mem_of_mem_head? minus)
      revert decimal
      decide
    simp [fromChars, signedToken, signedValue, signed, run, nonempty, unsigned]

end TorrentPeer.Decimal
