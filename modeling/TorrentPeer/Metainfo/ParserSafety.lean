import TorrentPeer.Metainfo.ParserSteps
import TorrentPeer.Metainfo.ParserGrammar
import TorrentPeer.Lib.Outcome

/-! The parser is safe on every input: it never reads outside, always comes to an end, and never
nests deeper than its limit. -/

namespace TorrentPeer.BencodeParser

open Splice Bencode Outcome

def Safe (data : Bytes) : Event → Prop
  | .access k => k < data.length
  | .span first last => first ≤ last ∧ last ≤ data.length
  | .moved pos => pos ≤ data.length
  | .minus left right => right ≤ left
  | .called active => active ≤ 101
  | .value before after => before.pos < after.pos ∧ after.depth = before.depth
  | .string before after => before.pos < after.pos

/-- The cursor is inside the input or at its end, and nothing harmful has happened. -/
structure Sound (data : Bytes) (m : Machine) : Prop where
  pos : m.state.pos ≤ data.length
  log : ∀ event ∈ m.log, Safe data event

section Primitives

variable {data : Bytes} {m : Machine}

theorem Sound.note (sound : Sound data m) (event : Event) (safe : Safe data event) : Sound data (m.note event) := by
  constructor
  · exact sound.pos
  · intro other member
    rcases List.mem_append.mp member with old | new
    · exact sound.log other old
    · rw [List.mem_singleton.mp new]
      exact safe

theorem Sound.moved (sound : Sound data m) {count : Nat} (inside : m.state.pos + count ≤ data.length) :
    Sound data (m.moved count) := by
  have shifted : Sound data { m with state := { m.state with pos := m.state.pos + count } } :=
    ⟨inside, sound.log⟩
  exact shifted.note _ inside

theorem Sound.changed (sound : Sound data m) {next : Machine} (pos : next.state.pos = m.state.pos)
    (log : next.log = m.log) : Sound data next := by
  constructor
  · rw [pos]
    exact sound.pos
  · rw [log]
    exact sound.log

variable {α : Type}

theorem run_access {k : Nat} {byte : UInt8} (located : data[k]? = some byte) (rest : UInt8 → Run α) :
    (Steps.access data k >>= rest) m = rest byte (m.note (.access k)) := by
  apply bind_run
  simp only [Steps.access, located]
  rfl

theorem run_minus (left right : Nat) (rest : Nat → Run α) :
    (Steps.minus left right >>= rest) m = rest (left - right) (m.note (.minus left right)) := rfl

theorem run_span (first last : Nat) (rest : Bytes → Run α) :
    (Steps.span data first last >>= rest) m = rest (slice data first (last - first)) (m.note (.span first last)) :=
  rfl

theorem run_move (count : Nat) (rest : Unit → Run α) : (Steps.move count >>= rest) m = rest () (m.moved count) := rfl

theorem run_cursor (rest : Nat → Run α) : (Steps.cursor >>= rest) m = rest m.state.pos m := rfl

theorem run_here (rest : State → Run α) : (Steps.here >>= rest) m = rest m.state m := rfl

theorem run_note (event : Event) (rest : Unit → Run α) : (Steps.note event >>= rest) m = rest () (m.note event) := rfl

theorem run_change (update : State → State) (rest : Unit → Run α) :
    (Steps.change update >>= rest) m = rest () { m with state := update m.state } := rfl

theorem run_pass {bad : Prop} [Decidable bad] (what : String) (good : ¬ bad) (rest : Unit → Run α) :
    (Steps.refuse bad what >>= rest) m = rest () m := by
  apply bind_run
  rw [Steps.refuse, if_neg good]
  rfl

theorem run_refuse {bad : Prop} [Decidable bad] (what : String) (wrong : bad) (rest : Unit → Run α) :
    (Steps.refuse bad what >>= rest) m = .error (.runtimeError (ascii what)) m := by
  apply bind_throw
  rw [Steps.refuse, if_pos wrong]
  rfl

end Primitives

section Tokens

variable {data : Bytes}

theorem skipDigits_step (data : Bytes) (pos : Nat) : BencodeParser.skipDigits data pos =
    if (data[pos]?).any Decimal.isDigit = true then BencodeParser.skipDigits data (pos + 1) else pos := by
  cases located : data[pos]? with
  | none =>
    have outside : data.length ≤ pos := List.getElem?_eq_none_iff.mp located
    simp [BencodeParser.skipDigits, List.drop_eq_nil_of_le outside]
  | some byte =>
    have split := remaining_cons data pos byte located
    rw [remaining, remaining] at split
    rw [BencodeParser.skipDigits, BencodeParser.skipDigits, split, List.takeWhile_cons]
    by_cases digit : Decimal.isDigit byte = true
    · rw [if_pos digit, Option.any_some, if_pos digit, List.length_cons]
      omega
    · rw [if_neg digit, Option.any_some, if_neg digit]
      rfl

theorem skipDigits_ends (fuel : Nat) (m : Machine) (sound : Sound data m)
    (enough : data.length < m.state.pos + fuel) :
    Ends (fun _ n => n.state = { m.state with pos := BencodeParser.skipDigits data m.state.pos } ∧
        n.active = m.active ∧ Sound data n) (fun _ _ => False) (Steps.skipDigits data fuel m) := by
  induction fuel generalizing m with
  | zero =>
    have pos := sound.pos
    omega
  | succ fuel ih =>
    rw [Steps.skipDigits, run_cursor, skipDigits_step]
    by_cases inside : m.state.pos < data.length
    · rw [if_pos inside, run_access (List.getElem?_eq_getElem inside), List.getElem?_eq_getElem inside]
      have accessed : Sound data (m.note (.access m.state.pos)) := sound.note _ inside
      by_cases digit : Decimal.isDigit data[m.state.pos] = true
      · rw [if_pos digit, run_move]
        have later := ih ((m.note (.access m.state.pos)).moved 1) (accessed.moved inside)
          (by simp only [Machine.moved, Machine.note]; omega)
        rw [Option.any_some, if_pos digit]
        exact later
      · rw [if_neg digit]
        rw [Option.any_some, if_neg digit]
        exact ⟨rfl, rfl, accessed⟩
    · rw [if_neg inside, List.getElem?_eq_none (Nat.le_of_not_lt inside)]
      exact ⟨rfl, rfl, sound⟩

theorem skipSign_ends (m : Machine) (sound : Sound data m) :
    Ends (fun _ n => n.state = { m.state with
          pos := if data[m.state.pos]? = some 45 then m.state.pos + 1 else m.state.pos } ∧
        n.active = m.active ∧ Sound data n) (fun _ _ => False) (Steps.skipSign data m) := by
  rw [Steps.skipSign, run_cursor]
  by_cases inside : m.state.pos < data.length
  · rw [if_pos inside, run_access (List.getElem?_eq_getElem inside), List.getElem?_eq_getElem inside]
    have accessed : Sound data (m.note (.access m.state.pos)) := sound.note _ inside
    by_cases sign : data[m.state.pos] = 45
    · rw [if_pos sign, if_pos (congrArg some sign)]
      exact ⟨rfl, rfl, accessed.moved inside⟩
    · rw [if_neg sign, if_neg (fun same => sign (Option.some.inj same))]
      exact ⟨rfl, rfl, accessed⟩
  · rw [if_neg inside, List.getElem?_eq_none (Nat.le_of_not_lt inside)]
    exact ⟨rfl, rfl, sound⟩

def Follows {α : Type} (data : Bytes) (m : Machine) (expected : Except Exn (α × State)) :
    EStateM.Result Exn Machine α → Prop :=
  Ends (fun value n => expected = .ok (value, n.state) ∧ n.active = m.active ∧ Sound data n)
    (fun problem n => expected = .error problem ∧ Sound data n)

theorem readBody_ends (length : Nat) (m : Machine) (sound : Sound data m) (inside : m.state.pos < data.length) :
    Ends (fun text n => ¬ data.length - (m.state.pos + 1) < length ∧ text = slice data (m.state.pos + 1) length ∧
        n.state = { m.state with pos := m.state.pos + 1 + length } ∧ n.active = m.active ∧ Sound data n)
      (fun problem n => data.length - (m.state.pos + 1) < length ∧
        problem = .runtimeError (ascii "String length out of bounds") ∧ Sound data n)
      (Steps.readBody data length m) := by
  have position : (m.moved 1).state.pos = m.state.pos + 1 := rfl
  rw [Steps.readBody, run_move, run_cursor, position, run_minus]
  have stepped : Sound data ((m.moved 1).note (.minus data.length (m.state.pos + 1))) :=
    (sound.moved inside).note _ inside
  by_cases long : data.length - (m.state.pos + 1) < length
  · rw [run_refuse _ long]
    exact ⟨long, rfl, stepped⟩
  · rw [run_pass _ long, run_span, run_move, Nat.add_sub_cancel_left]
    have read := stepped.note (.span (m.state.pos + 1) (m.state.pos + 1 + length))
      ⟨Nat.le_add_right _ _, by omega⟩
    exact ⟨long, rfl, rfl, rfl, read.moved (by simp only [Machine.note_state, Machine.moved_state]; omega)⟩

theorem readString_follows (m : Machine) (sound : Sound data m) :
    Follows data m (BencodeParser.readString data m.state) (Steps.readString data m) := by
  rw [Steps.readString, run_here, run_cursor]
  apply Ends.bind
  apply (skipDigits_ends (data.length + 1) m sound (by omega)).weaken
  · intro _ n skipped
    obtain ⟨state, active, sound⟩ := skipped
    have reached : n.state.pos = BencodeParser.skipDigits data m.state.pos := by rw [state]
    have further : m.state.pos ≤ n.state.pos := by
      rw [reached]
      exact Nat.le_add_right _ _
    rw [run_cursor, run_minus, BencodeParser.readString]
    dsimp only
    rw [← reached]
    have counted := sound.note (.minus n.state.pos m.state.pos) further
    by_cases ended : data.length ≤ n.state.pos
    · rw [run_refuse _ ended, List.getElem?_eq_none ended]
      exact ⟨rfl, counted⟩
    have inside : n.state.pos < data.length := Nat.lt_of_not_le ended
    rw [run_pass _ ended, run_access (List.getElem?_eq_getElem inside), List.getElem?_eq_getElem inside]
    dsimp only
    have closed := counted.note (.access n.state.pos) inside
    by_cases colon : data[n.state.pos] ≠ 58
    · rw [run_refuse _ colon, if_pos colon]
      exact ⟨rfl, closed⟩
    rw [run_pass _ colon, if_neg colon]
    by_cases empty : n.state.pos - m.state.pos = 0
    · rw [run_refuse _ empty, if_pos empty]
      exact ⟨rfl, closed⟩
    have begun : m.state.pos < data.length := by omega
    rw [run_pass _ empty, if_neg empty, run_access (List.getElem?_eq_getElem begun), List.getElem?_eq_getElem begun]
    have led := closed.note (.access m.state.pos) begun
    by_cases zero : data[m.state.pos] = 48 ∧ 1 < n.state.pos - m.state.pos
    · rw [run_refuse _ zero, if_pos ⟨congrArg some zero.1, zero.2⟩]
      exact ⟨rfl, led⟩
    rw [run_pass _ zero, if_neg (fun both => zero ⟨Option.some.inj both.1, both.2⟩), run_span]
    have read := led.note (.span m.state.pos n.state.pos) ⟨further, sound.pos⟩
    generalize Decimal.fromChars 0 (2 ^ 64 - 1) (slice data m.state.pos (n.state.pos - m.state.pos)) = result
    by_cases large : result.ec = .resultOutOfRange
    · rw [run_refuse _ large, if_pos large]
      exact ⟨rfl, read⟩
    rw [run_pass _ large, if_neg large]
    by_cases wrong : result.ec ≠ .ok ∨ result.ptr ≠ (slice data m.state.pos (n.state.pos - m.state.pos)).length
    · rw [run_refuse _ wrong, if_pos wrong]
      exact ⟨rfl, read⟩
    rw [run_pass _ wrong, if_neg wrong]
    apply Ends.bind
    apply (readBody_ends result.value.toNat _ read inside).weaken
    · intro text last body
      obtain ⟨short, content, position, same, sound⟩ := body
      simp only [Machine.note_state] at short content position
      rw [run_here, run_note, if_neg short, content]
      refine ⟨?_, same.trans active, sound.note _ ?_⟩
      · rw [Machine.note_state, position, state]
      · rw [Safe, position]
        dsimp only
        omega
    · intro problem last refused
      obtain ⟨long, same, sound⟩ := refused
      simp only [Machine.note_state] at long
      rw [if_pos long, same]
      exact ⟨rfl, sound⟩
  · intro _ _ impossible
    exact impossible.elim

theorem parseInt_follows (m : Machine) (sound : Sound data m) (opened : m.state.pos < data.length) :
    Follows data m (BencodeParser.parseInt data m.state) (Steps.parseInt data m) := by
  have position : (m.moved 1).state.pos = m.state.pos + 1 := rfl
  rw [Steps.parseInt, run_move, run_cursor, position]
  apply Ends.bind
  apply (skipSign_ends (m.moved 1) (sound.moved opened)).weaken
  · intro _ signed sign
    obtain ⟨sign_state, sign_active, sign_sound⟩ := sign
    rw [run_cursor]
    apply Ends.bind
    apply (skipDigits_ends (data.length + 1) signed sign_sound (by omega)).weaken
    · intro _ n skipped
      obtain ⟨state, active, sound⟩ := skipped
      have digits : signed.state.pos =
          if decide (data[m.state.pos + 1]? = some 45) = true then m.state.pos + 1 + 1 else m.state.pos + 1 := by
        rw [sign_state, position]
        simp only [decide_eq_true_eq]
      have negative : decide (data[m.state.pos + 1]? = some 45) = true ↔ signed.state.pos ≠ m.state.pos + 1 := by
        rw [digits]
        split
        · simp_all
        · simp_all
      have reached : n.state.pos = BencodeParser.skipDigits data signed.state.pos := by rw [state]
      have further : signed.state.pos ≤ n.state.pos := by
        rw [reached]
        exact Nat.le_add_right _ _
      have behind : m.state.pos + 1 ≤ signed.state.pos := by
        rw [digits]
        split <;> omega
      rw [run_cursor, run_minus, BencodeParser.parseInt]
      dsimp only
      rw [← digits, ← reached]
      have counted := sound.note (.minus n.state.pos signed.state.pos) further
      by_cases ended : data.length ≤ n.state.pos
      · rw [run_refuse _ ended, List.getElem?_eq_none ended]
        exact ⟨rfl, counted⟩
      have inside : n.state.pos < data.length := Nat.lt_of_not_le ended
      rw [run_pass _ ended, run_access (List.getElem?_eq_getElem inside), List.getElem?_eq_getElem inside]
      dsimp only
      have closed := counted.note (.access n.state.pos) inside
      by_cases letter : data[n.state.pos] ≠ 101
      · rw [run_refuse _ letter, if_pos letter]
        exact ⟨rfl, closed⟩
      rw [run_pass _ letter, if_neg letter]
      by_cases empty : n.state.pos - signed.state.pos = 0
      · rw [run_refuse _ empty, if_pos empty]
        exact ⟨rfl, closed⟩
      have begun : signed.state.pos < data.length := by omega
      rw [run_pass _ empty, if_neg empty, run_access (List.getElem?_eq_getElem begun), List.getElem?_eq_getElem begun]
      have led := closed.note (.access signed.state.pos) begun
      by_cases zero : data[signed.state.pos] = 48 ∧
          (1 < n.state.pos - signed.state.pos ∨ signed.state.pos ≠ m.state.pos + 1)
      · rw [run_refuse _ zero, if_pos ⟨congrArg some zero.1, zero.2.imp_right negative.mpr⟩]
        exact ⟨rfl, led⟩
      rw [run_pass _ zero, if_neg (fun both => zero ⟨Option.some.inj both.1, both.2.imp_right negative.mp⟩), run_span]
      have read := led.note (.span (m.state.pos + 1) n.state.pos) ⟨Nat.le_trans behind further, sound.pos⟩
      generalize Decimal.fromChars int64Min int64Max
        (slice data (m.state.pos + 1) (n.state.pos - (m.state.pos + 1))) = result
      by_cases large : result.ec = .resultOutOfRange
      · rw [run_refuse _ large, if_pos large]
        exact ⟨rfl, read⟩
      rw [run_pass _ large, if_neg large]
      by_cases wrong : result.ec ≠ .ok ∨
          result.ptr ≠ (slice data (m.state.pos + 1) (n.state.pos - (m.state.pos + 1))).length
      · rw [run_refuse _ wrong, if_pos wrong]
        exact ⟨rfl, read⟩
      rw [run_pass _ wrong, if_neg wrong, run_move]
      refine ⟨?_, active.trans sign_active, read.moved inside⟩
      simp only [Machine.moved_state, Machine.note_state, state, sign_state]
    · intro _ _ impossible
      exact impossible.elim
  · intro _ _ impossible
    exact impossible.elim

end Tokens

section Containers

variable (data : Bytes)

/-- A call is made at a depth within the limit, with one call active for each level and `more` besides. -/
structure Nested (more : Nat) (m : Machine) : Prop where
  sound : Sound data m
  active : m.active = m.state.depth + more
  shallow : m.state.depth ≤ kMaxDepth

def ValueFollows (more : Nat) (opening : UInt8 → Prop) (run : Run BencodeValue)
    (parser : State → Except Exn (BencodeValue × State)) : Prop :=
  ∀ m, Nested data more m → (∀ byte, data[m.state.pos]? = some byte → opening byte) →
    (more = 1 → m.state.pos < data.length) → Follows data m (parser m.state) (run m)

def ItemsFollows (fuel : Nat) : Prop :=
  ∀ m before, Nested data 0 m →
    Follows data m (BencodeParser.parseItems data fuel m.state before) (Steps.parseItems data fuel before m)

def EntriesFollows (fuel : Nat) : Prop :=
  ∀ m before, Nested data 0 m → (before.map Prod.fst).Pairwise (· < ·) →
    Follows data m (BencodeParser.parseEntries data fuel m.state before) (Steps.parseEntries data fuel before m)

theorem parseString_follows : ValueFollows data 1 (fun _ => True) (Steps.parseString data)
    (BencodeParser.parseString data) := by
  intro m nested _ _
  rw [Steps.parseString, BencodeParser.parseString]
  apply Ends.bind
  apply (readString_follows m nested.sound).weaken
  · intro text n ends
    obtain ⟨read, active, sound⟩ := ends
    rw [read]
    exact ⟨rfl, active, sound⟩
  · intro problem n ends
    obtain ⟨read, sound⟩ := ends
    rw [read]
    exact ⟨rfl, sound⟩

theorem run_deepen {α : Type} (m : Machine) (rest : Unit → Run α) :
    (Steps.deepen >>= rest) m =
      if kMaxDepth < m.state.depth + 1 then
        .error (.runtimeError (ascii "Nesting too deep"))
        { m with state := { m.state with depth := m.state.depth + 1 } }
      else rest () { m with state := { m.state with depth := m.state.depth + 1 } } := by
  by_cases deep : kMaxDepth < m.state.depth + 1
  · rw [if_pos deep]
    apply bind_throw
    rw [Steps.deepen, run_change, run_here, Steps.refuse, if_pos deep]
    rfl
  · rw [if_neg deep]
    apply bind_run
    rw [Steps.deepen, run_change, run_here, Steps.refuse, if_neg deep]
    rfl

theorem container_follows {β : Type} (loop : Run β) (parser : State → Except Exn (β × State))
    (wrap : β → BencodeValue)
    (m : Machine) (nested : Nested data 1 m) (begun : m.state.pos < data.length)
    (loops : ∀ inner, Nested data 0 inner → Follows data inner (parser inner.state) (loop inner))
    (closes : ∀ state result after, state.depth ≤ kMaxDepth → parser state = .ok (result, after) →
      after.depth = state.depth ∧ data[after.pos]? = some 101) :
    Follows data m
      (if kMaxDepth < m.state.depth + 1 then fail "Nesting too deep"
      else do
        let (result, after) ← parser { m.state with depth := m.state.depth + 1, pos := m.state.pos + 1 }
        .ok (wrap result, { after with pos := after.pos + 1, depth := after.depth - 1 }))
      ((do
        Steps.deepen
        Steps.move 1
        let result ← loop
        Steps.move 1
        Steps.rise
        pure (wrap result)) m) := by
  have deeper : Sound data { m with state := { m.state with depth := m.state.depth + 1 } } :=
    nested.sound.changed rfl rfl
  rw [run_deepen]
  by_cases deep : kMaxDepth < m.state.depth + 1
  · rw [if_pos deep, if_pos deep]
    exact ⟨rfl, deeper⟩
  rw [if_neg deep, if_neg deep, run_move]
  have inner : Nested data 0 (Machine.moved { m with state := { m.state with depth := m.state.depth + 1 } } 1) :=
    ⟨deeper.moved begun, nested.active, Nat.le_of_not_lt deep⟩
  apply Ends.bind
  apply (loops _ inner).weaken
  · intro result n ends
    obtain ⟨looped, active, sound⟩ := ends
    obtain ⟨level, closed⟩ := closes _ _ _ inner.shallow looped
    simp only [Machine.moved_state] at looped level
    rw [looped]
    have inside : n.state.pos < data.length := (List.getElem?_eq_some_iff.mp closed).1
    have further : n.state.pos + 1 ≤ data.length := inside
    have stepped := (sound.moved further).note (.minus n.state.depth 1) (by rw [Safe, level]; omega)
    exact ⟨rfl, active, stepped.changed rfl rfl⟩
  · intro problem n ends
    obtain ⟨looped, sound⟩ := ends
    simp only [Machine.moved_state] at looped
    rw [looped]
    exact ⟨rfl, sound⟩

theorem parseList_follows (fuel : Nat) (items : ItemsFollows data fuel) :
    ValueFollows data 1 (· = 108) (Steps.parseList data (fuel + 1)) (BencodeParser.parseList data (fuel + 1)) := by
  intro m nested _ begun
  rw [Steps.parseList, BencodeParser.parseList]
  apply container_follows data _ (fun state => BencodeParser.parseItems data fuel state []) _ m nested (begun rfl)
  · intro inner deeper
    exact items inner [] deeper
  · intro state result after shallow looped
    obtain ⟨more, -, -, -, consumed, closed⟩ := (grammar_sound data fuel).2.2.2.1 state [] result after shallow looped
    exact ⟨consumed.2.2, closed⟩

theorem parseDict_follows (fuel : Nat) (entries : EntriesFollows data fuel) :
    ValueFollows data 1 (· = 100) (Steps.parseDict data (fuel + 1)) (BencodeParser.parseDict data (fuel + 1)) := by
  intro m nested _ begun
  rw [Steps.parseDict, BencodeParser.parseDict]
  apply container_follows data _ (fun state => BencodeParser.parseEntries data fuel state []) _ m nested (begun rfl)
  · intro inner deeper
    exact entries inner [] deeper List.Pairwise.nil
  · intro state result after shallow looped
    obtain ⟨more, -, -, -, -, consumed, closed⟩ :=
      (grammar_sound data fuel).2.2.2.2 state [] result after shallow List.Pairwise.nil looped
    exact ⟨consumed.2.2, closed⟩

theorem value_progress (fuel : Nat) {state after : State} {value : BencodeValue} (shallow : state.depth ≤ kMaxDepth)
    (parsed : BencodeParser.parseValue data fuel state = .ok (value, after)) :
    state.pos < after.pos ∧ after.depth = state.depth := by
  obtain ⟨-, -, consumed⟩ := (grammar_sound data fuel).1 state value after shallow (fun _ _ => trivial) parsed
  have nonempty := encode_nonempty value
  rw [consumed.2.1]
  exact ⟨by omega, consumed.2.2⟩

theorem run_enter {α : Type} (m : Machine) (rest : Unit → Run α) : (Steps.enter >>= rest) m =
    rest () ({ m with active := m.active + 1 }.note (.called (m.active + 1))) := rfl

theorem leave_follows (fuel : Nat) (m inner : Machine) (nested : Nested data 0 m)
    (active : inner.active = m.active + 1)
    (run : Run BencodeValue)
    (branch : Follows data inner (BencodeParser.parseValue data fuel m.state) (run inner)) :
    Follows data m (BencodeParser.parseValue data fuel m.state)
      ((do
        let value ← run
        Steps.leave m.state
        pure value) inner) := by
  apply Ends.bind
  apply branch.weaken
  · intro value n ends
    obtain ⟨parsed, same, sound⟩ := ends
    have progress := value_progress data fuel nested.shallow parsed
    have fewer : Sound data { n with active := n.active - 1 } := sound.changed rfl rfl
    have level : n.active - 1 = m.active := by omega
    exact ⟨parsed, level, fewer.note (.value m.state n.state) progress⟩
  · intro problem n ends
    exact ends

theorem parseValue_follows (fuel : Nat)
    (list : ValueFollows data 1 (· = 108) (Steps.parseList data fuel) (BencodeParser.parseList data fuel))
    (dict : ValueFollows data 1 (· = 100) (Steps.parseDict data fuel) (BencodeParser.parseDict data fuel)) :
    ValueFollows data 0 (fun _ => True) (Steps.parseValue data (fuel + 1))
      (BencodeParser.parseValue data (fuel + 1)) := by
  intro m nested _ _
  have shallow := nested.shallow
  have within : Safe data (.called (m.active + 1)) := by
    rw [Safe, nested.active]
    exact Nat.succ_le_succ shallow
  have counted : Sound data { m with active := m.active + 1 } := nested.sound.changed rfl rfl
  have called := counted.note _ within
  rw [Steps.parseValue, run_here, run_enter]
  by_cases ended : data.length ≤ m.state.pos
  · rw [run_refuse _ ended, BencodeParser.parseValue, List.getElem?_eq_none ended]
    exact ⟨rfl, called⟩
  have inside : m.state.pos < data.length := Nat.lt_of_not_le ended
  have located : data[m.state.pos]? = some data[m.state.pos] := List.getElem?_eq_getElem inside
  rw [run_pass _ ended, run_access located]
  have inner : Nested data 1 ((({ m with active := m.active + 1 } : Machine).note (.called (m.active + 1))).note
      (.access m.state.pos)) := ⟨called.note _ inside, by simp [nested.active], shallow⟩
  have opening {code : UInt8} (same : data[m.state.pos] = code) :
    ∀ byte, data[m.state.pos]? = some byte → byte = code := by
    intro byte found
    rw [located, Option.some.injEq] at found
    rw [← found, same]
  -- the code after the branches is repeated in each of them
  have leaving (run : Run BencodeValue) := leave_follows data (fuel + 1) m _ nested (inner.active.trans (by
    rw [nested.active]; rfl)) run
  rw [BencodeParser.parseValue, located] at leaving ⊢
  dsimp only at leaving ⊢
  by_cases isInt : data[m.state.pos] = 105
  · simp only [if_pos isInt] at leaving ⊢
    apply leaving
    exact parseInt_follows _ inner.sound inside
  by_cases isList : data[m.state.pos] = 108
  · simp only [if_neg isInt, if_pos isList] at leaving ⊢
    apply leaving
    exact list _ inner (opening isList) (fun _ => inside)
  by_cases isDict : data[m.state.pos] = 100
  · simp only [if_neg isInt, if_neg isList, if_pos isDict] at leaving ⊢
    apply leaving
    exact dict _ inner (opening isDict) (fun _ => inside)
  simp only [if_neg isInt, if_neg isList, if_neg isDict] at leaving ⊢
  by_cases digit : Decimal.isDigit data[m.state.pos] = true
  · simp only [if_pos digit] at leaving ⊢
    apply leaving
    exact parseString_follows data _ inner (fun _ _ => trivial) (fun _ => inside)
  · rw [if_neg digit, if_neg digit]
    exact ⟨rfl, inner.sound⟩

theorem parseItems_follows (fuel : Nat)
    (value : ValueFollows data 0 (fun _ => True) (Steps.parseValue data fuel) (BencodeParser.parseValue data fuel))
    (items : ItemsFollows data fuel) : ItemsFollows data (fuel + 1) := by
  intro m before nested
  rw [Steps.parseItems, BencodeParser.parseItems, run_cursor]
  by_cases ended : data.length ≤ m.state.pos
  · rw [run_refuse _ ended, List.getElem?_eq_none ended]
    exact ⟨rfl, nested.sound⟩
  have inside : m.state.pos < data.length := Nat.lt_of_not_le ended
  rw [run_pass _ ended, run_access (List.getElem?_eq_getElem inside), List.getElem?_eq_getElem inside]
  dsimp only
  have accessed := nested.sound.note (.access m.state.pos) inside
  by_cases closing : data[m.state.pos] = 101
  · rw [if_pos closing, if_pos closing]
    exact ⟨rfl, rfl, accessed⟩
  rw [if_neg closing, if_neg closing]
  apply Ends.bind
  apply (value (m.note (.access m.state.pos)) ⟨accessed, nested.active, nested.shallow⟩ (fun _ _ => trivial)
    (fun wrong => absurd wrong Nat.zero_ne_one)).weaken
  · intro item n ends
    obtain ⟨parsed, active, sound⟩ := ends
    rw [Machine.note_state] at parsed
    have level := (value_progress data fuel nested.shallow parsed).2
    rw [parsed]
    have same : n.active = m.active := active
    have inner : Nested data 0 n := ⟨sound, by rw [same, level, nested.active], by rw [level]; exact nested.shallow⟩
    apply (items n (before ++ [item]) inner).weaken
    · intro list last ends
      obtain ⟨looped, active, sound⟩ := ends
      exact ⟨looped, active.trans same, sound⟩
    · intro problem last ends
      exact ends
  · intro problem n ends
    obtain ⟨parsed, sound⟩ := ends
    rw [Machine.note_state] at parsed
    rw [parsed]
    exact ⟨rfl, sound⟩

theorem entry_follows (fuel : Nat)
    (value : ValueFollows data 0 (fun _ => True) (Steps.parseValue data fuel) (BencodeParser.parseValue data fuel))
    (entries : EntriesFollows data fuel) (m : Machine) (before : List (Bytes × BencodeValue)) (key : Bytes)
    (nested : Nested data 0 m) (ascending : (before.map Prod.fst).Pairwise (· < ·))
    (accepted : keyError before key = none) :
    Follows data m
      (do
        let (value, after) ← BencodeParser.parseValue data fuel (opening key m.state)
        BencodeParser.parseEntries data fuel (closing key m.state.depth after) (before ++ [(key, value)]))
      ((do
        Steps.change (opening key)
        let value ← Steps.parseValue data fuel
        Steps.change (closing key m.state.depth)
        Steps.parseEntries data fuel (before ++ [(key, value)])) m) := by
  have opened := opening_cursor key m.state
  rw [run_change]
  have inner : Nested data 0 { m with state := opening key m.state } :=
    ⟨nested.sound.changed opened.1 rfl, by rw [nested.active, opened.2], by rw [opened.2]; exact nested.shallow⟩
  apply Ends.bind
  apply (value _ inner (fun _ _ => trivial) (fun wrong => absurd wrong Nat.zero_ne_one)).weaken
  · intro item n ends
    obtain ⟨parsed, active, sound⟩ := ends
    have level := (value_progress data fuel inner.shallow parsed).2
    have closed := closing_cursor key m.state.depth n.state
    rw [parsed, run_change]
    have later : Nested data 0 { n with state := closing key m.state.depth n.state } := by
      constructor
      · exact sound.changed closed.1 rfl
      · rw [active, closed.2, level, inner.active]
      · rw [closed.2, level]
        exact inner.shallow
    apply (entries _ (before ++ [(key, item)]) later (keys_extend before key item ascending accepted)).weaken
    · intro list last ends
      obtain ⟨looped, same, sound⟩ := ends
      exact ⟨looped, same.trans active, sound⟩
    · intro problem last ends
      exact ends
  · intro problem n ends
    obtain ⟨parsed, sound⟩ := ends
    rw [parsed]
    exact ⟨rfl, sound⟩

theorem parseEntries_follows (fuel : Nat)
    (value : ValueFollows data 0 (fun _ => True) (Steps.parseValue data fuel) (BencodeParser.parseValue data fuel))
    (entries : EntriesFollows data fuel) : EntriesFollows data (fuel + 1) := by
  intro m before nested ascending
  rw [Steps.parseEntries, BencodeParser.parseEntries, run_cursor]
  by_cases ended : data.length ≤ m.state.pos
  · rw [run_refuse _ ended, List.getElem?_eq_none ended]
    exact ⟨rfl, nested.sound⟩
  have inside : m.state.pos < data.length := Nat.lt_of_not_le ended
  rw [run_pass _ ended, run_access (List.getElem?_eq_getElem inside), List.getElem?_eq_getElem inside]
  dsimp only
  have accessed := nested.sound.note (.access m.state.pos) inside
  by_cases closing : data[m.state.pos] = 101
  · rw [if_pos closing, if_pos closing]
    exact ⟨rfl, rfl, accessed⟩
  rw [if_neg closing, if_neg closing]
  apply Ends.bind
  apply (readString_follows (m.note (.access m.state.pos)) accessed).weaken
  · intro key n ends
    obtain ⟨read, active, sound⟩ := ends
    rw [Machine.note_state] at read
    have keyed := (readString_sound data m.state n.state key read).2
    rw [read]
    cases accepted : keyError before key with
    | some what =>
      exact ⟨by simp only [accepted, bind, Except.bind]; rfl, sound⟩
    | none =>
      have inner : Nested data 0 n := by
        constructor
        · exact sound
        · rw [active, keyed]
          exact nested.active
        · rw [keyed]
          exact nested.shallow
      have rest := entry_follows data fuel value entries n before key inner ascending accepted
      simp only [accepted, bind, Except.bind]
      apply rest.weaken
      · intro list last ends
        obtain ⟨looped, same, sound⟩ := ends
        exact ⟨looped, same.trans active, sound⟩
      · intro problem last ends
        exact ends
  · intro problem n ends
    obtain ⟨read, sound⟩ := ends
    rw [Machine.note_state] at read
    rw [read]
    exact ⟨rfl, sound⟩

/-- Every parsing function follows its model at every fuel. -/
theorem grammar_follows (fuel : Nat) :
    ValueFollows data 0 (fun _ => True) (Steps.parseValue data fuel) (BencodeParser.parseValue data fuel) ∧
    ValueFollows data 1 (· = 108) (Steps.parseList data fuel) (BencodeParser.parseList data fuel) ∧
    ValueFollows data 1 (· = 100) (Steps.parseDict data fuel) (BencodeParser.parseDict data fuel) ∧
    ItemsFollows data fuel ∧ EntriesFollows data fuel := by
  induction fuel with
  | zero =>
    refine ⟨?_, ?_, ?_, ?_, ?_⟩
    · intro m nested _ _
      exact ⟨rfl, nested.sound⟩
    · intro m nested _ _
      exact ⟨rfl, nested.sound⟩
    · intro m nested _ _
      exact ⟨rfl, nested.sound⟩
    · intro m before nested
      exact ⟨rfl, nested.sound⟩
    · intro m before nested _
      exact ⟨rfl, nested.sound⟩
  | succ fuel ih =>
    obtain ⟨value, list, dict, items, entries⟩ := ih
    exact ⟨parseValue_follows data fuel list dict, parseList_follows data fuel items,
      parseDict_follows data fuel entries, parseItems_follows data fuel value items,
      parseEntries_follows data fuel value entries⟩

end Containers

end TorrentPeer.BencodeParser
