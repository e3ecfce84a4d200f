import TorrentPeer.Metainfo.Bencode
import TorrentPeer.Lib.Splice

/-! `BencodeParser`: a cursor into the input, the container depth and the span of
the root `info` value. -/

namespace TorrentPeer.BencodeParser

open Splice Bencode

structure State where
  pos : Nat
  depth : Nat
  infoStart : Nat
  infoEnd : Nat
  deriving DecidableEq, Repr

def start : State := ⟨0, 0, 0, 0⟩

def fail {α : Type} (what : String) : Except Exn α := .error (.runtimeError (ascii what))

def skipDigits (data : Bytes) (pos : Nat) : Nat :=
  pos + ((data.drop pos).takeWhile Decimal.isDigit).length

def parseInt (data : Bytes) (state : State) : Except Exn (BencodeValue × State) :=
  let first := state.pos + 1
  let negative := decide (data[first]? = some 45)
  let digitsStart := if negative then first + 1 else first
  let pos := skipDigits data digitsStart
  let digitCount := pos - digitsStart
  match data[pos]? with
  | none => fail "Unterminated integer"
  | some byte =>
    if byte ≠ 101 then fail "Unexpected character in integer"
    else if digitCount = 0 then fail "Integer has no digits"
    else if data[digitsStart]? = some 48 ∧ (1 < digitCount ∨ negative = true) then
      fail "Leading zero or negative zero"
    else
      let token := slice data first (pos - first)
      let result := Decimal.fromChars int64Min int64Max token
      if result.ec = .resultOutOfRange then fail "Integer out of range"
      else if result.ec ≠ .ok ∨ result.ptr ≠ token.length then fail "Invalid integer"
      else .ok (.int result.value, { state with pos := pos + 1 })

def readString (data : Bytes) (state : State) : Except Exn (Bytes × State) :=
  let digitsStart := state.pos
  let pos := skipDigits data digitsStart
  let digitCount := pos - digitsStart
  match data[pos]? with
  | none => fail "Unterminated string length"
  | some byte =>
    if byte ≠ 58 then fail "Unexpected character in string length"
    else if digitCount = 0 then fail "String length has no digits"
    else if data[digitsStart]? = some 48 ∧ 1 < digitCount then
      fail "Leading zero in string length"
    else
      let token := slice data digitsStart (pos - digitsStart)
      let result := Decimal.fromChars 0 (2 ^ 64 - 1) token
      if result.ec = .resultOutOfRange then fail "String length out of range"
      else if result.ec ≠ .ok ∨ result.ptr ≠ token.length then fail "Invalid string length"
      else
        let length := result.value.toNat
        let body := pos + 1
        if data.length - body < length then fail "String length out of bounds"
        else .ok (slice data body length, { state with pos := body + length })

def parseString (data : Bytes) (state : State) : Except Exn (BencodeValue × State) := do
  let (text, after) ← readString data state
  .ok (.str text, after)

def keyError (entries : List (Bytes × BencodeValue)) (key : Bytes) : Option String :=
  match entries.getLast? with
  | none => none
  | some last =>
    if last.1 < key then none
    else if key = last.1 then some "Duplicate dictionary key"
    else some "Dictionary keys not sorted"

mutual

def parseValue (data : Bytes) : Nat → State → Except Exn (BencodeValue × State)
  | 0, _ => .error (.undefined (ascii "fuel"))
  | fuel + 1, state =>
    match data[state.pos]? with
    | none => fail "Unexpected end of input"
    | some byte =>
      if byte = 105 then parseInt data state
      else if byte = 108 then parseList data fuel state
      else if byte = 100 then parseDict data fuel state
      else if Decimal.isDigit byte then parseString data state
      else fail "Invalid bencode value"

def parseList (data : Bytes) : Nat → State → Except Exn (BencodeValue × State)
  | 0, _ => .error (.undefined (ascii "fuel"))
  | fuel + 1, state =>
    if kMaxDepth < state.depth + 1 then fail "Nesting too deep"
    else do
      let (items, after) ← parseItems data fuel
        { state with depth := state.depth + 1, pos := state.pos + 1 } []
      .ok (.list items, { after with pos := after.pos + 1, depth := after.depth - 1 })

def parseDict (data : Bytes) : Nat → State → Except Exn (BencodeValue × State)
  | 0, _ => .error (.undefined (ascii "fuel"))
  | fuel + 1, state =>
    if kMaxDepth < state.depth + 1 then fail "Nesting too deep"
    else do
      let (entries, after) ← parseEntries data fuel
        { state with depth := state.depth + 1, pos := state.pos + 1 } []
      .ok (.dict entries, { after with pos := after.pos + 1, depth := after.depth - 1 })

/-- The loop of `parse_list`, stopped at the closing `e`. -/
def parseItems (data : Bytes) :
    Nat → State → List BencodeValue → Except Exn (List BencodeValue × State)
  | 0, _, _ => .error (.undefined (ascii "fuel"))
  | fuel + 1, state, items =>
    match data[state.pos]? with
    | none => fail "Unterminated list"
    | some byte =>
      if byte = 101 then .ok (items, state)
      else do
        let (item, after) ← parseValue data fuel state
        parseItems data fuel after (items ++ [item])

/-- The loop of `parse_dict`, stopped at the closing `e`. -/
def parseEntries (data : Bytes) :
    Nat → State → List (Bytes × BencodeValue) →
      Except Exn (List (Bytes × BencodeValue) × State)
  | 0, _, _ => .error (.undefined (ascii "fuel"))
  | fuel + 1, state, entries =>
    match data[state.pos]? with
    | none => fail "Unterminated dict"
    | some byte =>
      if byte = 101 then .ok (entries, state)
      else do
        let (key, keyed) ← readString data state
        match keyError entries key with
        | some what => fail what
        | none =>
          let isInfo := decide (keyed.depth = 1 ∧ key = ascii "info")
          let opened := if isInfo then { keyed with infoStart := keyed.pos } else keyed
          let (value, after) ← parseValue data fuel opened
          let closed := if isInfo then { after with infoEnd := after.pos } else after
          parseEntries data fuel closed (entries ++ [(key, value)])

end

/-- `parse`, with the parser's final state for `get_info_range`. -/
def parse (data : Bytes) : Except Exn (BencodeValue × State) := do
  let (value, after) ← parseValue data (3 * data.length + 3) start
  if after.pos ≠ data.length then fail "Invalid extra data" else .ok (value, after)

def getInfoRange (state : State) : Nat × Nat := (state.infoStart, state.infoEnd)

end TorrentPeer.BencodeParser
