import TorrentPeer.Metainfo.ParserSafety

/-! The parser comes to an end: fuel proportional to the length of the input decides every call. -/

namespace TorrentPeer.BencodeParser

open Splice Bencode Outcome

def outOfFuel : Exn := .undefined (ascii "fuel")

theorem fail_decided {α : Type} (what : String) : (fail what : Except Exn α) ≠ .error outOfFuel := by
  intro same
  cases same

theorem ok_decided {α : Type} (value : α) : (.ok value : Except Exn α) ≠ .error outOfFuel := by
  intro same
  cases same

theorem readString_decided (data : Bytes) (state : State) : readString data state ≠ .error outOfFuel := by
  rw [readString]
  dsimp only
  generalize Decimal.fromChars 0 (2 ^ 64 - 1) _ = result
  repeat' split
  all_goals first | exact fail_decided _ | exact ok_decided _

theorem parseInt_decided (data : Bytes) (state : State) : parseInt data state ≠ .error outOfFuel := by
  rw [parseInt]
  dsimp only
  generalize Decimal.fromChars int64Min int64Max _ = result
  repeat' split
  all_goals first | exact fail_decided _ | exact ok_decided _

theorem parseString_decided (data : Bytes) (state : State) : parseString data state ≠ .error outOfFuel := by
  rw [parseString]
  have decided := readString_decided data state
  cases read : readString data state with
  | ok result => exact ok_decided _
  | error problem =>
    rw [read] at decided
    exact fun same => decided (congrArg Except.error (Except.error.inj same))

variable (data : Bytes)

/-- With `left` bytes to go, each function is decided by the fuel it needs. -/
structure Decided (left : Nat) : Prop where
  value : ∀ state, state.depth ≤ kMaxDepth → data.length - state.pos ≤ left →
    Settles outOfFuel (fun fuel => parseValue data fuel state) (3 * left + 1)
  items : ∀ state before, state.depth ≤ kMaxDepth → data.length - state.pos ≤ left →
    Settles outOfFuel (fun fuel => parseItems data fuel state before) (3 * left + 2)
  entries : ∀ state before, state.depth ≤ kMaxDepth → data.length - state.pos ≤ left →
    Settles outOfFuel (fun fuel => parseEntries data fuel state before) (3 * left + 2)

theorem container_settles {β : Type} (enough : Nat) (state : State) (loop : Nat → State → Except Exn (β × State))
    (wrap : β → BencodeValue)
    (loops : state.depth + 1 ≤ kMaxDepth → Settles outOfFuel
      (fun fuel => loop fuel { state with depth := state.depth + 1, pos := state.pos + 1 }) enough) :
    Settles outOfFuel (fun fuel =>
      if kMaxDepth < state.depth + 1 then fail "Nesting too deep"
      else do
        let (result, after) ← loop fuel { state with depth := state.depth + 1, pos := state.pos + 1 }
        .ok (wrap result, { after with pos := after.pos + 1, depth := after.depth - 1 })) enough := by
  by_cases deep : kMaxDepth < state.depth + 1
  · simp only [if_pos deep]
    exact Settles.constant (fail_decided _) enough
  · simp only [if_neg deep]
    apply (loops (Nat.le_of_not_lt deep)).bind
    intro result _
    exact Settles.constant (ok_decided _) enough

theorem value_settles (left : Nat) (earlier : ∀ fewer, fewer < left → Decided data fewer) (state : State)
    (room : data.length - state.pos ≤ left) :
    Settles outOfFuel (fun fuel => parseValue data fuel state) (3 * left + 1) := by
  cases located : data[state.pos]? with
  | none =>
    apply (Settles.constant (fail_decided "Unexpected end of input") (3 * left)).enter
    intro fuel
    rw [parseValue, located]
  | some byte =>
    have inside : state.pos < data.length := (List.getElem?_eq_some_iff.mp located).1
    obtain ⟨fewer, count⟩ : ∃ fewer, left = fewer + 1 := ⟨left - 1, by omega⟩
    have within : data.length - (state.pos + 1) ≤ fewer := by omega
    have decided := earlier fewer (by omega)
    have list : Settles outOfFuel (fun fuel => parseList data fuel state) (3 * left) := by
      have inner := container_settles (3 * fewer + 2) state (fun fuel state => parseItems data fuel state []) .list
        (fun shallow => decided.items _ [] shallow within)
      rw [count]
      exact inner.enter (fun fuel => by rw [parseList])
    have dict : Settles outOfFuel (fun fuel => parseDict data fuel state) (3 * left) := by
      have inner := container_settles (3 * fewer + 2) state (fun fuel state => parseEntries data fuel state []) .dict
        (fun shallow => decided.entries _ [] shallow within)
      rw [count]
      exact inner.enter (fun fuel => by rw [parseDict])
    have unfolds (fuel : Nat) : parseValue data (fuel + 1) state =
        if byte = 105 then parseInt data state
        else if byte = 108 then parseList data fuel state
        else if byte = 100 then parseDict data fuel state
        else if Decimal.isDigit byte then parseString data state
        else fail "Invalid bencode value" := by
      rw [parseValue, located]
    refine Settles.enter ?_ unfolds
    by_cases isInt : byte = 105
    · simp only [if_pos isInt]
      exact Settles.constant (parseInt_decided data state) _
    simp only [if_neg isInt]
    by_cases isList : byte = 108
    · simp only [if_pos isList]
      exact list
    simp only [if_neg isList]
    by_cases isDict : byte = 100
    · simp only [if_pos isDict]
      exact dict
    simp only [if_neg isDict]
    by_cases digit : Decimal.isDigit byte = true
    · simp only [if_pos digit]
      exact Settles.constant (parseString_decided data state) _
    · simp only [if_neg digit]
      exact Settles.constant (fail_decided _) _

theorem items_settles (left : Nat) (earlier : ∀ fewer, fewer < left → Decided data fewer) (state : State)
    (before : List BencodeValue) (shallow : state.depth ≤ kMaxDepth) (room : data.length - state.pos ≤ left) :
    Settles outOfFuel (fun fuel => parseItems data fuel state before) (3 * left + 2) := by
  cases located : data[state.pos]? with
  | none =>
    apply (Settles.constant (fail_decided "Unterminated list") (3 * left + 1)).enter
    intro fuel
    rw [parseItems, located]
  | some byte =>
    have inside : state.pos < data.length := (List.getElem?_eq_some_iff.mp located).1
    have unfolds (fuel : Nat) : parseItems data (fuel + 1) state before =
        (if byte = 101 then .ok (before, state)
        else parseValue data fuel state >>= fun item =>
          parseItems data fuel item.2 (before ++ [item.1])) := by
      rw [parseItems, located]
    refine Settles.enter ?_ unfolds
    by_cases closing : byte = 101
    · simp only [if_pos closing]
      exact Settles.constant (ok_decided _) _
    simp only [if_neg closing]
    apply (value_settles data left earlier state room).bind
    intro result parsed
    have progress := value_progress data _ shallow parsed
    have decided := earlier (left - 1) (by omega)
    apply (decided.items result.2 _ (by rw [progress.2]; exact shallow) (by omega)).widen
    omega

theorem entries_settles (left : Nat) (earlier : ∀ fewer, fewer < left → Decided data fewer) (state : State)
    (before : List (Bytes × BencodeValue)) (shallow : state.depth ≤ kMaxDepth)
    (room : data.length - state.pos ≤ left) :
    Settles outOfFuel (fun fuel => parseEntries data fuel state before) (3 * left + 2) := by
  cases located : data[state.pos]? with
  | none =>
    apply (Settles.constant (fail_decided "Unterminated dict") (3 * left + 1)).enter
    intro fuel
    rw [parseEntries, located]
  | some byte =>
    have inside : state.pos < data.length := (List.getElem?_eq_some_iff.mp located).1
    have unfolds (fuel : Nat) : parseEntries data (fuel + 1) state before =
        (if byte = 101 then .ok (before, state)
        else readString data state >>= fun key =>
          (keyError before key.1).elim
            (parseValue data fuel (opening key.1 key.2) >>= fun value =>
              parseEntries data fuel (closing key.1 key.2.depth value.2) (before ++ [(key.1, value.1)]))
            fail) := by
      rw [parseEntries, located]
      dsimp only
      split
      · rfl
      · apply bind_congr
        intro key
        cases keyError before key.1 <;> rfl
    refine Settles.enter ?_ unfolds
    by_cases closed : byte = 101
    · simp only [if_pos closed]
      exact Settles.constant (ok_decided _) _
    simp only [if_neg closed]
    apply (Settles.constant (readString_decided data state) (3 * left + 1)).bind
    intro result read
    obtain ⟨key, keyed⟩ := result
    have forward := (readString_sound data state keyed key read).2
    dsimp only
    cases accepted : keyError before key with
    | some what => exact Settles.constant (fail_decided _) _
    | none =>
      have opened := opening_cursor key keyed
      have level : (opening key keyed).depth = state.depth := by rw [opened.2, forward]
      have further : state.pos ≤ (opening key keyed).pos := by
        rw [opened.1, forward]
        exact Nat.le_add_right _ _
      apply (value_settles data left earlier (opening key keyed) (by omega)).bind
      intro value parsed
      have progress := value_progress data _ (by rw [level]; exact shallow) parsed
      have closed := closing_cursor key keyed.depth value.2
      have decided := earlier (left - 1) (by omega)
      apply (decided.entries (closing key keyed.depth value.2) _ ?_ ?_).widen
      · omega
      · rw [closed.2, progress.2, level]
        exact shallow
      · rw [closed.1]
        omega

theorem decided_all (left : Nat) : Decided data left := by
  induction left using Nat.strongRecOn with
  | ind left earlier =>
    constructor
    · intro state _ room
      exact value_settles data left earlier state room
    · intro state before shallow room
      exact items_settles data left earlier state before shallow room
    · intro state before shallow room
      exact entries_settles data left earlier state before shallow room

theorem parseValue_settled (fuel : Nat) (enough : 3 * data.length + 3 ≤ fuel) :
    parseValue data fuel start = parseValue data (3 * data.length + 3) start ∧
      parseValue data fuel start ≠ .error outOfFuel := by
  obtain ⟨result, decided, same⟩ := (decided_all data data.length).value start (Nat.zero_le _) (Nat.le_refl _)
  have here := same fuel (by omega)
  have there := same (3 * data.length + 3) (by omega)
  dsimp only at here there
  rw [here, there]
  exact ⟨rfl, decided⟩

theorem fresh_nested : Nested data 0 Machine.fresh :=
  ⟨⟨Nat.zero_le _, fun _ member => absurd member List.not_mem_nil⟩, rfl, Nat.zero_le _⟩

def wholeInput (result : BencodeValue × State) : Except Exn (BencodeValue × State) :=
  if result.2.pos ≠ data.length then fail "Invalid extra data" else .ok result

theorem parse_follows (fuel : Nat) :
    Follows data Machine.fresh (parseValue data fuel start >>= wholeInput data)
      (Steps.parse data fuel Machine.fresh) := by
  have value := (grammar_follows data fuel).1 Machine.fresh (fresh_nested data) (fun _ _ => trivial)
    (fun wrong => absurd wrong Nat.zero_ne_one)
  rw [Steps.parse]
  apply Ends.bind
  apply value.weaken
  · intro value n ends
    obtain ⟨parsed, active, sound⟩ := ends
    rw [show parseValue data fuel start = _ from parsed, run_cursor]
    by_cases extra : n.state.pos ≠ data.length
    · rw [run_refuse _ extra]
      exact ⟨if_pos extra, sound⟩
    · rw [run_pass _ extra]
      exact ⟨if_neg extra, active, sound⟩
  · intro problem n ends
    obtain ⟨parsed, sound⟩ := ends
    rw [show parseValue data fuel start = _ from parsed]
    exact ⟨rfl, sound⟩

/-- What a run returns or throws; the state stays in the parser for `get_info_range`. -/
def returned : EStateM.Result Exn Machine BencodeValue → Except Exn (BencodeValue × State)
  | .ok value m => .ok (value, m.state)
  | .error problem _ => .error problem

def traced : EStateM.Result Exn Machine BencodeValue → List Event
  | .ok _ m => m.log
  | .error _ m => m.log

theorem Follows.returned {data : Bytes} {expected : Except Exn (BencodeValue × State)} {m : Machine}
    {result : EStateM.Result Exn Machine BencodeValue} (follows : Follows data m expected result) :
    BencodeParser.returned result = expected := by
  cases result with
  | ok value n => exact follows.1.symm
  | error problem n => exact follows.1.symm

theorem Follows.traced {data : Bytes} {expected : Except Exn (BencodeValue × State)} {m : Machine}
    {result : EStateM.Result Exn Machine BencodeValue} (follows : Follows data m expected result) :
    ∀ event ∈ BencodeParser.traced result, Safe data event := by
  cases result with
  | ok value n => exact follows.2.2.log
  | error problem n => exact follows.2.log

theorem wholeInput_decided (result : Except Exn (BencodeValue × State)) (decided : result ≠ .error outOfFuel) :
    (result >>= wholeInput data) ≠ .error outOfFuel := by
  cases result with
  | error problem =>
    exact fun same => decided (congrArg Except.error (Except.error.inj same))
  | ok parsed =>
    by_cases extra : parsed.2.pos ≠ data.length
    · have refused : (Except.ok parsed >>= wholeInput data) = fail "Invalid extra data" := if_pos extra
      rw [refused]
      exact fail_decided _
    · have accepted : (Except.ok parsed >>= wholeInput data) = .ok parsed := if_neg extra
      rw [accepted]
      exact ok_decided _

/-- Whatever the input, no step of `parse` is harmful, however far it is run, and it comes to an end
with the result of the model after a number of steps the length of the input bounds. -/
theorem parser_safe (data : Bytes) :
    (∀ fuel, ∀ event ∈ traced (Steps.parse data fuel Machine.fresh), Safe data event) ∧
    (∀ fuel, 3 * data.length + 3 ≤ fuel →
      returned (Steps.parse data fuel Machine.fresh) = parse data ∧
        returned (Steps.parse data fuel Machine.fresh) ≠ .error outOfFuel) := by
  constructor
  · intro fuel
    exact (parse_follows data fuel).traced
  · intro fuel enough
    obtain ⟨same, decided⟩ := parseValue_settled data fuel enough
    have whole : parse data = (parseValue data (3 * data.length + 3) start >>= wholeInput data) := rfl
    have ends := (parse_follows data fuel).returned
    constructor
    · rw [ends, whole, same]
    · rw [ends]
      exact wholeInput_decided data _ decided

end TorrentPeer.BencodeParser
