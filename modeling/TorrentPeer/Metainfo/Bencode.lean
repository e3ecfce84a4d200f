import TorrentPeer.Core.Types
import TorrentPeer.Lib.Decimal
import Mathlib.Data.List.Lex

/-! Bencode values and their canonical encoding. A dictionary is the list of its
bindings in the order `std::map` keeps them. -/

namespace TorrentPeer

inductive BencodeValue where
  | int (value : Int)
  | str (text : Bytes)
  | list (items : List BencodeValue)
  | dict (entries : List (Bytes × BencodeValue))

namespace Bencode

def int64Min : Int := -(2 ^ 63)
def int64Max : Int := 2 ^ 63 - 1

def encodeInt (value : Int) : Bytes :=
  105 :: ((if value < 0 then [45] else []) ++ Decimal.render value.natAbs ++ [101])

def encodeString (text : Bytes) : Bytes := Decimal.render text.length ++ 58 :: text

mutual

def encode : BencodeValue → Bytes
  | .int value => encodeInt value
  | .str text => encodeString text
  | .list items => 108 :: (encodeItems items ++ [101])
  | .dict entries => 100 :: (encodeEntries entries ++ [101])

def encodeItems : List BencodeValue → Bytes
  | [] => []
  | item :: items => encode item ++ encodeItems items

def encodeEntries : List (Bytes × BencodeValue) → Bytes
  | [] => []
  | (key, value) :: entries => encodeString key ++ encode value ++ encodeEntries entries

end

mutual

def nesting : BencodeValue → Nat
  | .int _ => 0
  | .str _ => 0
  | .list items => nestingItems items + 1
  | .dict entries => nestingEntries entries + 1

def nestingItems : List BencodeValue → Nat
  | [] => 0
  | item :: items => max (nesting item) (nestingItems items)

def nestingEntries : List (Bytes × BencodeValue) → Nat
  | [] => 0
  | (_, value) :: entries => max (nesting value) (nestingEntries entries)

end

mutual

def WellFormed : BencodeValue → Prop
  | .int value => int64Min ≤ value ∧ value ≤ int64Max
  | .str _ => True
  | .list items => WellFormedItems items
  | .dict entries => WellFormedEntries entries ∧ (entries.map Prod.fst).Pairwise (· < ·)

def WellFormedItems : List BencodeValue → Prop
  | [] => True
  | item :: items => WellFormed item ∧ WellFormedItems items

def WellFormedEntries : List (Bytes × BencodeValue) → Prop
  | [] => True
  | (_, value) :: entries => WellFormed value ∧ WellFormedEntries entries

end

def kMaxDepth : Nat := 100

def Canonical (value : BencodeValue) : Prop := WellFormed value ∧ nesting value ≤ kMaxDepth

theorem encodeEntries_append (first second : List (Bytes × BencodeValue)) :
    encodeEntries (first ++ second) = encodeEntries first ++ encodeEntries second := by
  induction first with
  | nil => rfl
  | cons entry entries ih =>
    obtain ⟨key, value⟩ := entry
    simp only [List.cons_append, encodeEntries, ih, List.append_assoc]

theorem encode_nonempty (value : BencodeValue) : 0 < (encode value).length := by
  cases value with
  | int value => simp [encode, encodeInt]
  | str text => simp [encode, encodeString]
  | list items => simp [encode]
  | dict entries => simp [encode]

end Bencode

end TorrentPeer
