import TorrentPeer.Metainfo.Parser

/-! `BencodeParser` statement by statement: every unchecked access to the input, every change of the
cursor, every subtraction and every call of `parse_value` is logged, and the log outlives a throw. -/

namespace TorrentPeer.BencodeParser

open Bencode

inductive Event where
  /-- `data_[k]`. -/
  | access (k : Nat)
  /-- The bytes from `first` to `last` that `from_chars` or `substr` reads. -/
  | span (first last : Nat)
  /-- `pos_` has a new value. -/
  | moved (pos : Nat)
  /-- A subtraction on `size_t`. -/
  | minus (left right : Nat)
  /-- A call of `parse_value`, with the number of calls that have not returned. -/
  | called (active : Nat)
  /-- A call of `parse_value` returned. -/
  | value (before after : State)
  /-- A call of `read_string` returned. -/
  | string (before after : State)

structure Machine where
  state : State
  active : Nat
  log : List Event

abbrev Run := EStateM Exn Machine

namespace Machine

def note (m : Machine) (event : Event) : Machine := { m with log := m.log ++ [event] }

def moved (m : Machine) (count : Nat) : Machine :=
  { m with state := { m.state with pos := m.state.pos + count } }.note (.moved (m.state.pos + count))

@[simp] theorem note_state (m : Machine) (event : Event) : (m.note event).state = m.state := rfl

@[simp] theorem note_active (m : Machine) (event : Event) : (m.note event).active = m.active := rfl

@[simp] theorem moved_state (m : Machine) (count : Nat) :
    (m.moved count).state = { m.state with pos := m.state.pos + count } := rfl

@[simp] theorem moved_active (m : Machine) (count : Nat) : (m.moved count).active = m.active := rfl

end Machine

namespace Steps

def here : Run State := fun m => .ok m.state m

def cursor : Run Nat := fun m => .ok m.state.pos m

def note (event : Event) : Run Unit := fun m => .ok () (m.note event)

def move (count : Nat) : Run Unit := fun m => .ok () (m.moved count)

def change (update : State → State) : Run Unit := fun m => .ok () { m with state := update m.state }

def access (data : Bytes) (k : Nat) : Run UInt8 := do
  note (.access k)
  match data[k]? with
  | some byte => pure byte
  | none => throw (.undefined (ascii "data_[k]"))

def minus (left right : Nat) : Run Nat := do
  note (.minus left right)
  pure (left - right)

def span (data : Bytes) (first last : Nat) : Run Bytes := do
  note (.span first last)
  pure (Splice.slice data first (last - first))

def refuse (bad : Prop) [Decidable bad] (what : String) : Run Unit :=
  if bad then throw (.runtimeError (ascii what)) else pure ()

def skipDigits (data : Bytes) : Nat → Run Unit
  | 0 => throw (.undefined (ascii "fuel"))
  | fuel + 1 => do
      let pos ← cursor
      if pos < data.length then
        let c ← access data pos
        if Decimal.isDigit c = true then do
          move 1
          skipDigits data fuel
        else pure ()
      else pure ()

def skipSign (data : Bytes) : Run Unit := do
  let pos ← cursor
  if pos < data.length then
    let c ← access data pos
    if c = 45 then move 1 else pure ()
  else pure ()

def parseInt (data : Bytes) : Run BencodeValue := do
  move 1
  let start ← cursor
  skipSign data
  let digitsStart ← cursor
  skipDigits data (data.length + 1)
  let pos ← cursor
  let digitCount ← minus pos digitsStart
  refuse (data.length ≤ pos) "Unterminated integer"
  let closing ← access data pos
  refuse (closing ≠ 101) "Unexpected character in integer"
  refuse (digitCount = 0) "Integer has no digits"
  let leading ← access data digitsStart
  refuse (leading = 48 ∧ (1 < digitCount ∨ digitsStart ≠ start)) "Leading zero or negative zero"
  let token ← span data start pos
  let result := Decimal.fromChars int64Min int64Max token
  refuse (result.ec = .resultOutOfRange) "Integer out of range"
  refuse (result.ec ≠ .ok ∨ result.ptr ≠ token.length) "Invalid integer"
  move 1
  pure (.int result.value)

/-- The end of `read_string`, from the colon on. -/
def readBody (data : Bytes) (length : Nat) : Run Bytes := do
  move 1
  let body ← cursor
  let room ← minus data.length body
  refuse (room < length) "String length out of bounds"
  let text ← span data body (body + length)
  move length
  pure text

def readString (data : Bytes) : Run Bytes := do
  let before ← here
  let digitsStart ← cursor
  skipDigits data (data.length + 1)
  let pos ← cursor
  let digitCount ← minus pos digitsStart
  refuse (data.length ≤ pos) "Unterminated string length"
  let colon ← access data pos
  refuse (colon ≠ 58) "Unexpected character in string length"
  refuse (digitCount = 0) "String length has no digits"
  let leading ← access data digitsStart
  refuse (leading = 48 ∧ 1 < digitCount) "Leading zero in string length"
  let token ← span data digitsStart pos
  let result := Decimal.fromChars 0 (2 ^ 64 - 1) token
  refuse (result.ec = .resultOutOfRange) "String length out of range"
  refuse (result.ec ≠ .ok ∨ result.ptr ≠ token.length) "Invalid string length"
  let text ← readBody data result.value.toNat
  let after ← here
  note (.string before after)
  pure text

def parseString (data : Bytes) : Run BencodeValue := do
  let text ← readString data
  pure (.str text)

def deepen : Run Unit := do
  change (fun s => { s with depth := s.depth + 1 })
  let state ← here
  refuse (kMaxDepth < state.depth) "Nesting too deep"

def rise : Run Unit := do
  let state ← here
  let depth ← minus state.depth 1
  change (fun s => { s with depth := depth })

def enter : Run Unit := fun m => .ok () ({ m with active := m.active + 1 }.note (.called (m.active + 1)))

def leave (before : State) : Run Unit :=
  fun m => .ok () ({ m with active := m.active - 1 }.note (.value before m.state))

mutual

def parseValue (data : Bytes) : Nat → Run BencodeValue
  | 0 => throw (.undefined (ascii "fuel"))
  | fuel + 1 => do
      let before ← here
      enter
      refuse (data.length ≤ before.pos) "Unexpected end of input"
      let c ← access data before.pos
      let value ←
        if c = 105 then parseInt data
        else if c = 108 then parseList data fuel
        else if c = 100 then parseDict data fuel
        else if Decimal.isDigit c = true then parseString data
        else throw (.runtimeError (ascii "Invalid bencode value"))
      leave before
      pure value

def parseList (data : Bytes) : Nat → Run BencodeValue
  | 0 => throw (.undefined (ascii "fuel"))
  | fuel + 1 => do
      deepen
      move 1
      let items ← parseItems data fuel []
      move 1
      rise
      pure (.list items)

def parseDict (data : Bytes) : Nat → Run BencodeValue
  | 0 => throw (.undefined (ascii "fuel"))
  | fuel + 1 => do
      deepen
      move 1
      let entries ← parseEntries data fuel []
      move 1
      rise
      pure (.dict entries)

def parseItems (data : Bytes) : Nat → List BencodeValue → Run (List BencodeValue)
  | 0, _ => throw (.undefined (ascii "fuel"))
  | fuel + 1, items => do
      let pos ← cursor
      refuse (data.length ≤ pos) "Unterminated list"
      let c ← access data pos
      if c = 101 then pure items
      else do
        let item ← parseValue data fuel
        parseItems data fuel (items ++ [item])

def parseEntries (data : Bytes) : Nat → List (Bytes × BencodeValue) → Run (List (Bytes × BencodeValue))
  | 0, _ => throw (.undefined (ascii "fuel"))
  | fuel + 1, entries => do
      let pos ← cursor
      refuse (data.length ≤ pos) "Unterminated dict"
      let c ← access data pos
      if c = 101 then pure entries
      else do
        let key ← readString data
        match keyError entries key with
        | some what => throw (.runtimeError (ascii what))
        | none =>
          let keyed ← here
          let isInfo := decide (keyed.depth = 1 ∧ key = ascii "info")
          change (fun s => if isInfo then { s with infoStart := s.pos } else s)
          let value ← parseValue data fuel
          change (fun s => if isInfo then { s with infoEnd := s.pos } else s)
          parseEntries data fuel (entries ++ [(key, value)])

end

def parse (data : Bytes) (fuel : Nat) : Run BencodeValue := do
  let value ← parseValue data fuel
  let pos ← cursor
  refuse (pos ≠ data.length) "Invalid extra data"
  pure value

end Steps

def Machine.fresh : Machine := ⟨start, 0, []⟩

end TorrentPeer.BencodeParser
