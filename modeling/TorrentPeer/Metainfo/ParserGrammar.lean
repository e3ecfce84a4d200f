import TorrentPeer.Metainfo.ParserTokens

/-! The parser accepts exactly the canonical encodings. -/

namespace TorrentPeer.BencodeParser

open Splice Bencode

def Consumed (data : Bytes) (state after : State) (bytes : Bytes) : Prop :=
  remaining data state.pos = bytes ++ remaining data after.pos ∧
    after.pos = state.pos + bytes.length ∧ after.depth = state.depth

theorem Consumed.nothing (data : Bytes) (state : State) : Consumed data state state [] :=
  ⟨rfl, rfl, rfl⟩

theorem Consumed.trans {data first second : Bytes} {state middle after : State}
    (left : Consumed data state middle first) (right : Consumed data middle after second) :
    Consumed data state after (first ++ second) := by
  refine ⟨?_, ?_, right.2.2.trans left.2.2⟩
  · rw [left.1, right.1, List.append_assoc]
  · rw [right.2.1, left.2.1, List.length_append, Nat.add_assoc]

theorem Consumed.bracket {data inner : Bytes} {state after : State} {opening : UInt8}
    (opened : data[state.pos]? = some opening) (closed : data[after.pos]? = some 101)
    (body : Consumed data { state with depth := state.depth + 1, pos := state.pos + 1 } after inner) :
    Consumed data state { after with pos := after.pos + 1, depth := after.depth - 1 }
      (opening :: (inner ++ [101])) := by
  obtain ⟨content, position, depth⟩ := body
  have first := remaining_cons data state.pos opening opened
  have last := remaining_cons data after.pos 101 closed
  dsimp only at content position depth
  refine ⟨?_, ?_, ?_⟩
  · rw [first, content, last]
    simp
  · simp only [position, List.length_cons, List.length_append, List.length_nil]
    omega
  · simp only [depth, Nat.add_sub_cancel]

theorem keys_extend (entries : List (Bytes × BencodeValue)) (key : Bytes) (value : BencodeValue)
    (ascending : (entries.map Prod.fst).Pairwise (· < ·)) (accepted : keyError entries key = none) :
    ((entries ++ [(key, value)]).map Prod.fst).Pairwise (· < ·) := by
  rw [List.map_append, List.pairwise_append]
  refine ⟨ascending, by simp, ?_⟩
  intro other member last single
  simp only [List.map_cons, List.map_nil, List.mem_singleton] at single
  subst single
  induction entries using List.reverseRecOn with
  | nil => cases member
  | append_singleton front final _ =>
    simp only [keyError, List.getLast?_append, List.getLast?_singleton, Option.some_or] at accepted
    have above : final.1 < last := by
      by_contra below
      rw [if_neg below] at accepted
      split at accepted <;> cases accepted
    rw [List.map_append, List.pairwise_append] at ascending
    rw [List.map_append, List.mem_append] at member
    rcases member with earlier | same
    · exact List.lt_trans (ascending.2.2 other earlier final.1 (by simp)) above
    · simp only [List.map_cons, List.map_nil, List.mem_singleton] at same
      exact same ▸ above

theorem keyError_none (entries : List (Bytes × BencodeValue)) (key : Bytes) (value : BencodeValue)
    (ascending : ((entries ++ [(key, value)]).map Prod.fst).Pairwise (· < ·)) :
    keyError entries key = none := by
  rw [List.map_append, List.pairwise_append] at ascending
  cases last : entries.getLast? with
  | none => simp only [keyError, last]
  | some final =>
    have member : final.1 ∈ entries.map Prod.fst :=
      List.mem_map.mpr ⟨final, List.mem_of_getLast? last, rfl⟩
    have above := ascending.2.2 final.1 member key (by simp)
    simp only [keyError, last, if_pos above]

def opening (key : Bytes) (keyed : State) : State :=
  if decide (keyed.depth = 1 ∧ key = ascii "info") = true then { keyed with infoStart := keyed.pos }
  else keyed

def closing (key : Bytes) (depth : Nat) (after : State) : State :=
  if decide (depth = 1 ∧ key = ascii "info") = true then { after with infoEnd := after.pos } else after

theorem opening_cursor (key : Bytes) (keyed : State) :
    (opening key keyed).pos = keyed.pos ∧ (opening key keyed).depth = keyed.depth := by
  unfold opening
  split <;> exact ⟨rfl, rfl⟩

theorem closing_cursor (key : Bytes) (depth : Nat) (after : State) :
    (closing key depth after).pos = after.pos ∧ (closing key depth after).depth = after.depth := by
  unfold closing
  split <;> exact ⟨rfl, rfl⟩

theorem parseEntries_cases {data : Bytes} {fuel : Nat} {state after : State}
    {before result : List (Bytes × BencodeValue)}
    (parsed : parseEntries data (fuel + 1) state before = .ok (result, after)) :
    (data[state.pos]? = some 101 ∧ result = before ∧ after = state) ∨
      ∃ key keyed item middle, readString data state = .ok (key, keyed) ∧
        keyError before key = none ∧
        parseValue data fuel (opening key keyed) = .ok (item, middle) ∧
        parseEntries data fuel (closing key keyed.depth middle) (before ++ [(key, item)]) =
          .ok (result, after) := by
  simp only [parseEntries] at parsed
  split at parsed
  · cases parsed
  rename_i byte located
  split at parsed
  · rename_i closed
    cases parsed
    exact Or.inl ⟨closed ▸ located, rfl, rfl⟩
  obtain ⟨⟨key, keyed⟩, read, rest⟩ := bind_ok parsed
  dsimp only at rest
  split at rest
  · cases rest
  rename_i accepted
  obtain ⟨⟨item, middle⟩, parsed_value, rest⟩ := bind_ok rest
  exact Or.inr ⟨key, keyed, item, middle, read, accepted, parsed_value, rest⟩

section Soundness

variable (data : Bytes)

def ValueSound (parser : State → Except Exn (BencodeValue × State)) (opening : UInt8 → Prop) : Prop :=
  ∀ state value after, state.depth ≤ kMaxDepth →
    (∀ byte, data[state.pos]? = some byte → opening byte) →
    parser state = .ok (value, after) →
    WellFormed value ∧ state.depth + nesting value ≤ kMaxDepth ∧
      Consumed data state after (encode value)

def ItemsSound (parser : State → List BencodeValue →
    Except Exn (List BencodeValue × State)) : Prop :=
  ∀ state before items after, state.depth ≤ kMaxDepth →
    parser state before = .ok (items, after) →
    ∃ more, items = before ++ more ∧ WellFormedItems more ∧
      state.depth + nestingItems more ≤ kMaxDepth ∧
      Consumed data state after (encodeItems more) ∧ data[after.pos]? = some 101

def EntriesSound (parser : State → List (Bytes × BencodeValue) →
    Except Exn (List (Bytes × BencodeValue) × State)) : Prop :=
  ∀ state before entries after, state.depth ≤ kMaxDepth →
    (before.map Prod.fst).Pairwise (· < ·) →
    parser state before = .ok (entries, after) →
    ∃ more, entries = before ++ more ∧ WellFormedEntries more ∧
      (entries.map Prod.fst).Pairwise (· < ·) ∧
      state.depth + nestingEntries more ≤ kMaxDepth ∧
      Consumed data state after (encodeEntries more) ∧ data[after.pos]? = some 101

theorem parseString_sound : ValueSound data (parseString data) (fun _ => True) := by
  intro state value after shallow _ parsed
  obtain ⟨⟨text, middle⟩, read, result⟩ := bind_ok parsed
  cases result
  obtain ⟨split, after_is⟩ := readString_sound data state after text read
  refine ⟨trivial, by simpa [nesting] using shallow, ?_⟩
  rw [encode]
  exact ⟨split, by rw [after_is], by rw [after_is]⟩

theorem opened_by (state inner : State) (opening : UInt8) (body : Bytes)
    (expected : ∀ byte, data[state.pos]? = some byte → byte = opening)
    (taken : Consumed data { state with depth := state.depth + 1, pos := state.pos + 1 } inner body)
    (closed : data[inner.pos]? = some 101) : data[state.pos]? = some opening := by
  cases first : data[state.pos]? with
  | some byte => rw [expected byte first]
  | none =>
    have outside : data.length ≤ state.pos := List.getElem?_eq_none_iff.mp first
    have inside := taken.2.1
    simp only at inside
    rw [List.getElem?_eq_none (by omega)] at closed
    cases closed

theorem parseList_sound (fuel : Nat) (items : ItemsSound data (parseItems data fuel)) :
    ValueSound data (parseList data (fuel + 1)) (· = 108) := by
  intro state value after shallow opening parsed
  simp only [parseList] at parsed
  split at parsed
  · cases parsed
  rename_i room
  obtain ⟨⟨parsed_items, inner⟩, loop, result⟩ := bind_ok parsed
  cases result
  obtain ⟨more, items_eq, formed, depth, body, closed⟩ :=
    items _ _ _ _ (by simp only; omega) loop
  rw [List.nil_append] at items_eq
  subst items_eq
  have opened := opened_by data state inner 108 _ opening body closed
  refine ⟨formed, ?_, Consumed.bracket opened closed body⟩
  simp only [nesting] at depth ⊢
  omega

theorem parseDict_sound (fuel : Nat) (entries : EntriesSound data (parseEntries data fuel)) :
    ValueSound data (parseDict data (fuel + 1)) (· = 100) := by
  intro state value after shallow opening parsed
  simp only [parseDict] at parsed
  split at parsed
  · cases parsed
  rename_i room
  obtain ⟨⟨parsed_entries, inner⟩, loop, result⟩ := bind_ok parsed
  cases result
  obtain ⟨more, entries_eq, formed, ascending, depth, body, closed⟩ :=
    entries _ _ _ _ (by simp only; omega) (by simp) loop
  rw [List.nil_append] at entries_eq
  subst entries_eq
  have opened := opened_by data state inner 100 _ opening body closed
  refine ⟨⟨formed, ascending⟩, ?_, Consumed.bracket opened closed body⟩
  simp only [nesting] at depth ⊢
  omega

theorem parseValue_sound (fuel : Nat)
    (list : ValueSound data (parseList data fuel) (· = 108))
    (dict : ValueSound data (parseDict data fuel) (· = 100)) :
    ValueSound data (parseValue data (fuel + 1)) (fun _ => True) := by
  intro state value after shallow _ parsed
  simp only [parseValue] at parsed
  split at parsed
  · cases parsed
  rename_i byte located
  have only (code : UInt8) (same : byte = code) :
      ∀ other, data[state.pos]? = some other → other = code := by
    intro other found
    rw [located, Option.some.injEq] at found
    exact found ▸ same
  split at parsed
  · rename_i is_int
    subst is_int
    obtain ⟨number, result_eq, low, high, split, after_is⟩ :=
      parseInt_sound data state after value located parsed
    subst result_eq
    refine ⟨⟨low, high⟩, by simpa [nesting] using shallow, ?_⟩
    rw [encode]
    exact ⟨split, by rw [after_is], by rw [after_is]⟩
  split at parsed
  · rename_i is_list
    exact list state value after shallow (only 108 is_list) parsed
  split at parsed
  · rename_i is_dict
    exact dict state value after shallow (only 100 is_dict) parsed
  split at parsed
  · exact parseString_sound data state value after shallow (fun _ _ => trivial) parsed
  · cases parsed

theorem parseItems_sound (fuel : Nat)
    (value : ValueSound data (parseValue data fuel) (fun _ => True))
    (items : ItemsSound data (parseItems data fuel)) :
    ItemsSound data (parseItems data (fuel + 1)) := by
  intro state before result after shallow parsed
  simp only [parseItems] at parsed
  split at parsed
  · cases parsed
  rename_i byte located
  split at parsed
  · rename_i closing
    cases parsed
    exact ⟨[], by simp, trivial, by simpa [nestingItems] using shallow,
      Consumed.nothing data _, closing ▸ located⟩
  obtain ⟨⟨item, middle⟩, head, rest⟩ := bind_ok parsed
  obtain ⟨formed, depth, taken⟩ := value state item middle shallow (fun _ _ => trivial) head
  obtain ⟨more, result_eq, rest_formed, rest_depth, rest_taken, closed⟩ :=
    items middle (before ++ [item]) result after (by rw [taken.2.2]; exact shallow) rest
  refine ⟨item :: more, by rw [result_eq]; simp, ⟨formed, rest_formed⟩, ?_, ?_, closed⟩
  · rw [nestingItems]
    rw [taken.2.2] at rest_depth
    omega
  · rw [encodeItems]
    exact taken.trans rest_taken

theorem entry_taken {fuel : Nat} {state keyed middle : State} {key : Bytes} {item : BencodeValue}
    (value : ValueSound data (parseValue data fuel) (fun _ => True)) (shallow : state.depth ≤ kMaxDepth)
    (read : readString data state = .ok (key, keyed))
    (parsed : parseValue data fuel (opening key keyed) = .ok (item, middle)) :
    WellFormed item ∧ state.depth + nesting item ≤ kMaxDepth ∧
      Consumed data state keyed (encodeString key) ∧
      Consumed data keyed (closing key keyed.depth middle) (encode item) := by
  obtain ⟨key_split, keyed_is⟩ := readString_sound data state keyed key read
  have key_taken : Consumed data state keyed (encodeString key) :=
    ⟨key_split, by rw [keyed_is], by rw [keyed_is]⟩
  have opened_same := opening_cursor key keyed
  have next_same := closing_cursor key keyed.depth middle
  obtain ⟨formed, depth, content, position, level⟩ := value (opening key keyed) item middle
    (by rw [opened_same.2, key_taken.2.2]; exact shallow) (fun _ _ => trivial) parsed
  rw [opened_same.1] at content position
  rw [opened_same.2] at level
  rw [opened_same.2, key_taken.2.2] at depth
  exact ⟨formed, depth, key_taken, by rw [next_same.1]; exact content,
    by rw [next_same.1]; exact position, by rw [next_same.2]; exact level⟩

theorem parseEntries_sound (fuel : Nat)
    (value : ValueSound data (parseValue data fuel) (fun _ => True))
    (entries : EntriesSound data (parseEntries data fuel)) :
    EntriesSound data (parseEntries data (fuel + 1)) := by
  intro state before result after shallow ascending parsed
  rcases parseEntries_cases parsed with
    ⟨closed, same, stays⟩ | ⟨key, keyed, item, middle, read, accepted, parsed_value, rest⟩
  · subst same stays
    exact ⟨[], by simp, trivial, ascending, by simpa [nestingEntries] using shallow,
      Consumed.nothing data _, closed⟩
  obtain ⟨formed, depth, key_taken, value_taken⟩ := entry_taken data value shallow read parsed_value
  have both := key_taken.trans value_taken
  obtain ⟨more, result_eq, rest_formed, rest_ascending, rest_depth, rest_taken, closed⟩ :=
    entries _ (before ++ [(key, item)]) result after (by rw [both.2.2]; exact shallow)
      (keys_extend before key item ascending accepted) rest
  refine ⟨(key, item) :: more, by rw [result_eq]; simp, ⟨formed, rest_formed⟩, rest_ascending,
    ?_, ?_, closed⟩
  · rw [nestingEntries]
    rw [both.2.2] at rest_depth
    omega
  · rw [encodeEntries]
    exact both.trans rest_taken

/-- Every parsing function is sound at every fuel. -/
theorem grammar_sound (fuel : Nat) :
    ValueSound data (parseValue data fuel) (fun _ => True) ∧
    ValueSound data (parseList data fuel) (· = 108) ∧
    ValueSound data (parseDict data fuel) (· = 100) ∧
    ItemsSound data (parseItems data fuel) ∧ EntriesSound data (parseEntries data fuel) := by
  induction fuel with
  | zero =>
    refine ⟨?_, ?_, ?_, ?_, ?_⟩
    · intro state value after _ _ parsed
      cases parsed
    · intro state value after _ _ parsed
      cases parsed
    · intro state value after _ _ parsed
      cases parsed
    · intro state before items after _ parsed
      cases parsed
    · intro state before entries after _ _ parsed
      cases parsed
  | succ fuel ih =>
    obtain ⟨value, list, dict, items, entries⟩ := ih
    exact ⟨parseValue_sound data fuel list dict, parseList_sound data fuel items,
      parseDict_sound data fuel entries, parseItems_sound data fuel value items,
      parseEntries_sound data fuel value entries⟩

end Soundness

theorem encodeString_head (text : Bytes) :
    ∃ byte tail, encodeString text = byte :: tail ∧ Decimal.isDigit byte = true := by
  have numeral := Decimal.render_numeral text.length
  cases shape : Decimal.render text.length with
  | nil => exact absurd shape numeral.1
  | cons byte tail =>
    refine ⟨byte, tail ++ 58 :: text, by rw [encodeString, shape, List.cons_append], ?_⟩
    exact numeral.2.1 byte (by rw [shape]; exact List.mem_cons_self)

theorem digit_codes (byte : UInt8) (decimal : Decimal.isDigit byte = true) :
    byte ≠ 100 ∧ byte ≠ 101 ∧ byte ≠ 105 ∧ byte ≠ 108 := by
  refine ⟨?_, ?_, ?_, ?_⟩ <;> (rintro rfl; revert decimal; decide)

theorem encode_head (value : BencodeValue) :
    ∃ byte tail, encode value = byte :: tail ∧ byte ≠ 101 := by
  cases value with
  | int value => exact ⟨105, _, by rw [encode, encodeInt], by decide⟩
  | str text =>
    obtain ⟨byte, tail, shape, decimal⟩ := encodeString_head text
    exact ⟨byte, tail, by rw [encode, shape], (digit_codes byte decimal).2.1⟩
  | list items => exact ⟨108, _, by rw [encode], by decide⟩
  | dict entries => exact ⟨100, _, by rw [encode], by decide⟩

theorem located_head (data tail : Bytes) (pos : Nat) (byte : UInt8)
    (split : remaining data pos = byte :: tail) : data[pos]? = some byte := by
  rw [remaining_head, split, List.head?_cons]

section Completeness

variable (data : Bytes)

def Moved (state after : State) (bytes : Bytes) : Prop :=
  after.pos = state.pos + bytes.length ∧ after.depth = state.depth

theorem parseString_complete (small : data.length < 2 ^ 64) (text rest : Bytes) (state : State)
    (fuel : Nat)
    (split : remaining data state.pos = encodeString text ++ rest) (enough : 0 < fuel) :
    ∃ after, parseValue data fuel state = .ok (.str text, after) ∧
      Moved state after (encodeString text) := by
  obtain ⟨byte, tail, shape, decimal⟩ := encodeString_head text
  obtain ⟨not_dict, -, not_int, not_list⟩ := digit_codes byte decimal
  have located : data[state.pos]? = some byte :=
    located_head data (tail ++ rest) state.pos byte (by rw [split, shape, List.cons_append])
  obtain ⟨fuel, rfl⟩ := Nat.exists_eq_succ_of_ne_zero (Nat.ne_of_gt enough)
  refine ⟨{ state with pos := state.pos + (encodeString text).length }, ?_, rfl, rfl⟩
  simp only [parseValue, located, if_neg not_int, if_neg not_list,
    if_neg not_dict, decimal, if_true, parseString, readString_complete data text rest state small split]
  rfl

mutual

theorem parseValue_complete (small : data.length < 2 ^ 64) (value : BencodeValue) (state : State)
    (rest : Bytes) (fuel : Nat)
    (formed : WellFormed value) (shallow : state.depth + nesting value ≤ kMaxDepth)
    (split : remaining data state.pos = encode value ++ rest)
    (enough : 3 * (encode value).length ≤ fuel) :
    ∃ after, parseValue data fuel state = .ok (value, after) ∧
      Moved state after (encode value) := by
  have nonempty := encode_nonempty value
  cases value with
  | str text =>
    rw [encode] at split enough nonempty ⊢
    exact parseString_complete data small text rest state fuel split (by omega)
  | int number =>
    rw [encode] at split enough nonempty ⊢
    obtain ⟨fuel, rfl⟩ := Nat.exists_eq_succ_of_ne_zero (show fuel ≠ 0 by omega)
    have located : data[state.pos]? = some 105 :=
      located_head data _ state.pos 105 (by rw [split, encodeInt, List.cons_append])
    refine ⟨{ state with pos := state.pos + (encodeInt number).length }, ?_, rfl, rfl⟩
    simp only [parseValue, located, if_true]
    exact parseInt_complete data rest number state formed.1 formed.2 split
  | list items =>
    rw [encode] at split enough nonempty ⊢
    rw [nesting] at shallow
    simp only [List.length_cons, List.length_append, List.length_nil] at enough
    obtain ⟨fuel, rfl⟩ : ∃ inner, fuel = inner + 2 := ⟨fuel - 2, by omega⟩
    have located : data[state.pos]? = some 108 :=
      located_head data _ state.pos 108 (by rw [split, List.cons_append])
    have body : remaining data (state.pos + 1) = encodeItems items ++ 101 :: rest := by
      apply remaining_advance data [108]
      rw [split]
      simp
    obtain ⟨after, loop, position, depth⟩ := parseItems_complete small items
      { state with depth := state.depth + 1, pos := state.pos + 1 } [] rest fuel formed
      (by simp only; omega) body (by omega)
    have room : ¬ kMaxDepth < state.depth + 1 := by omega
    refine ⟨{ after with pos := after.pos + 1, depth := after.depth - 1 }, ?_, ?_, ?_⟩
    · simp only [parseValue, parseList, located, if_neg room, loop,
        show (108 : UInt8) ≠ 105 by decide, if_false, if_true]
      rfl
    · simp only [position, List.length_cons, List.length_append, List.length_nil]
      omega
    · simp only [depth, Nat.add_sub_cancel]
  | dict entries =>
    rw [encode] at split enough nonempty ⊢
    rw [nesting] at shallow
    simp only [List.length_cons, List.length_append, List.length_nil] at enough
    obtain ⟨fuel, rfl⟩ : ∃ inner, fuel = inner + 2 := ⟨fuel - 2, by omega⟩
    have located : data[state.pos]? = some 100 :=
      located_head data _ state.pos 100 (by rw [split, List.cons_append])
    have body : remaining data (state.pos + 1) = encodeEntries entries ++ 101 :: rest := by
      apply remaining_advance data [100]
      rw [split]
      simp
    obtain ⟨after, loop, position, depth⟩ := parseEntries_complete small entries
      { state with depth := state.depth + 1, pos := state.pos + 1 } [] rest fuel formed.1
      (by simpa using formed.2) (by simp only; omega) body (by omega)
    have room : ¬ kMaxDepth < state.depth + 1 := by omega
    refine ⟨{ after with pos := after.pos + 1, depth := after.depth - 1 }, ?_, ?_, ?_⟩
    · simp only [parseValue, parseDict, located, if_neg room, loop,
        show (100 : UInt8) ≠ 105 by decide, show (100 : UInt8) ≠ 108 by decide, if_false, if_true]
      rfl
    · simp only [position, List.length_cons, List.length_append, List.length_nil]
      omega
    · simp only [depth, Nat.add_sub_cancel]

theorem parseItems_complete (small : data.length < 2 ^ 64) (items : List BencodeValue) (state : State)
    (before : List BencodeValue) (rest : Bytes) (fuel : Nat)
    (formed : WellFormedItems items) (shallow : state.depth + nestingItems items ≤ kMaxDepth)
    (split : remaining data state.pos = encodeItems items ++ 101 :: rest)
    (enough : 3 * (encodeItems items).length + 1 ≤ fuel) :
    ∃ after, parseItems data fuel state before = .ok (before ++ items, after) ∧
      Moved state after (encodeItems items) := by
  obtain ⟨fuel, rfl⟩ : ∃ inner, fuel = inner + 1 := ⟨fuel - 1, by omega⟩
  cases items with
  | nil =>
    have located : data[state.pos]? = some 101 := located_head data rest state.pos 101 split
    refine ⟨state, ?_, rfl, rfl⟩
    simp only [parseItems, located, if_true, List.append_nil]
  | cons item items =>
    rw [encodeItems] at split enough ⊢
    rw [nestingItems] at shallow
    rw [List.length_append] at enough
    have nonempty := encode_nonempty item
    obtain ⟨byte, tail, shape, continues⟩ := encode_head item
    have located : data[state.pos]? = some byte :=
      located_head data _ state.pos byte (by rw [split, shape]; rfl)
    obtain ⟨middle, head, position, depth⟩ := parseValue_complete small item state
      (encodeItems items ++ 101 :: rest) fuel formed.1 (by omega)
      (by rw [split, List.append_assoc]) (by omega)
    have next : remaining data middle.pos = encodeItems items ++ 101 :: rest := by
      rw [position]
      exact remaining_advance data (encode item) _ state.pos (by rw [split, List.append_assoc])
    obtain ⟨after, loop, last, level⟩ := parseItems_complete small items middle (before ++ [item]) rest
      fuel formed.2 (by rw [depth]; omega) next (by omega)
    refine ⟨after, ?_, ?_, level.trans depth⟩
    · simp only [parseItems, located, if_neg continues, head]
      rw [List.append_assoc] at loop
      exact loop
    · rw [last, position, List.length_append, Nat.add_assoc]

theorem parseEntries_complete (small : data.length < 2 ^ 64)
    (entries : List (Bytes × BencodeValue)) (state : State) (before : List (Bytes × BencodeValue))
    (rest : Bytes) (fuel : Nat)
    (formed : WellFormedEntries entries)
    (ascending : ((before ++ entries).map Prod.fst).Pairwise (· < ·))
    (shallow : state.depth + nestingEntries entries ≤ kMaxDepth)
    (split : remaining data state.pos = encodeEntries entries ++ 101 :: rest)
    (enough : 3 * (encodeEntries entries).length + 1 ≤ fuel) :
    ∃ after, parseEntries data fuel state before = .ok (before ++ entries, after) ∧
      Moved state after (encodeEntries entries) := by
  obtain ⟨fuel, rfl⟩ : ∃ inner, fuel = inner + 1 := ⟨fuel - 1, by omega⟩
  cases entries with
  | nil =>
    have located : data[state.pos]? = some 101 := located_head data rest state.pos 101 split
    refine ⟨state, ?_, rfl, rfl⟩
    simp only [parseEntries, located, if_true, List.append_nil]
  | cons entry entries =>
    obtain ⟨key, value⟩ := entry
    rw [encodeEntries] at split enough ⊢
    rw [nestingEntries] at shallow
    rw [List.length_append, List.length_append] at enough
    have nonempty := encode_nonempty value
    obtain ⟨byte, tail, shape, decimal⟩ := encodeString_head key
    have located : data[state.pos]? = some byte :=
      located_head data _ state.pos byte (by rw [split, shape]; rfl)
    have continues := (digit_codes byte decimal).2.1
    have key_split : remaining data state.pos =
        encodeString key ++ (encode value ++ (encodeEntries entries ++ 101 :: rest)) := by
      rw [split, List.append_assoc, List.append_assoc]
    have read := readString_complete data key _ state small key_split
    have accepted : keyError before key = none := by
      apply keyError_none before key value
      rw [List.append_cons, List.map_append, List.pairwise_append] at ascending
      exact ascending.1
    obtain ⟨keyed, keyed_is⟩ : ∃ keyed, keyed =
        { state with pos := state.pos + (encodeString key).length } := ⟨_, rfl⟩
    obtain ⟨opened, opened_is⟩ : ∃ opened, opened =
        if decide (keyed.depth = 1 ∧ key = ascii "info") = true
        then { keyed with infoStart := keyed.pos } else keyed := ⟨_, rfl⟩
    have opened_same : opened.pos = state.pos + (encodeString key).length ∧
        opened.depth = state.depth := by
      rw [opened_is, keyed_is]
      split <;> exact ⟨rfl, rfl⟩
    have value_at : remaining data opened.pos =
        encode value ++ (encodeEntries entries ++ 101 :: rest) := by
      rw [opened_same.1]
      exact remaining_advance data _ _ state.pos key_split
    obtain ⟨middle, head, position, depth⟩ := parseValue_complete small value opened
      (encodeEntries entries ++ 101 :: rest) fuel formed.1
      (by rw [opened_same.2]; omega) value_at (by omega)
    obtain ⟨next, next_is⟩ : ∃ next, next =
        if decide (keyed.depth = 1 ∧ key = ascii "info") = true
        then { middle with infoEnd := middle.pos } else middle := ⟨_, rfl⟩
    have next_same : next.pos = middle.pos ∧ next.depth = middle.depth := by
      rw [next_is]
      split <;> exact ⟨rfl, rfl⟩
    have rest_at : remaining data next.pos = encodeEntries entries ++ 101 :: rest := by
      rw [next_same.1, position]
      exact remaining_advance data (encode value) _ opened.pos value_at
    obtain ⟨after, loop, last, level⟩ := parseEntries_complete small entries next
      (before ++ [(key, value)]) rest fuel formed.2 (by simpa using ascending)
      (by rw [next_same.2, depth, opened_same.2]; omega) rest_at (by omega)
    refine ⟨after, ?_, ?_, ?_⟩
    · rw [List.append_assoc] at loop
      simp only [parseEntries, located, if_neg continues, read, ← keyed_is, Except.bind, bind,
        accepted, ← opened_is, head, ← next_is]
      exact loop
    · rw [last, next_same.1, position, opened_same.1, List.length_append, List.length_append]
      omega
    · rw [level, next_same.2, depth, opened_same.2]

end

end Completeness

/-- Acceptance is exactly canonical bencode, and the value returned is the one encoded. -/
theorem parse_accepts_iff (data : Bytes) (value : BencodeValue) (small : data.length < 2 ^ 64) :
    (∃ after, parse data = .ok (value, after)) ↔ Canonical value ∧ encode value = data := by
  constructor
  · rintro ⟨after, parsed⟩
    obtain ⟨⟨result, last⟩, inner, checked⟩ := bind_ok parsed
    dsimp only at checked
    split at checked
    · cases checked
    rename_i whole
    cases checked
    simp only [ne_eq, not_not] at whole
    obtain ⟨formed, shallow, split, -, -⟩ := (grammar_sound data _).1 start value after
      (by decide) (fun _ _ => trivial) inner
    refine ⟨⟨formed, by simpa [start] using shallow⟩, ?_⟩
    simpa [start, remaining, whole] using split.symm
  · rintro ⟨⟨formed, shallow⟩, encoded⟩
    obtain ⟨after, parsed, position, -⟩ := parseValue_complete data small value start []
      (3 * data.length + 3) formed (by simpa [start] using shallow)
      (by simp [start, remaining, encoded]) (by rw [encoded]; omega)
    have whole : after.pos = data.length := by
      rw [position, encoded]
      simp [start]
    refine ⟨after, ?_⟩
    simp only [parse, parsed, bind, Except.bind, whole, ne_eq, not_true_eq_false, if_false]

/-- The parser and the encoder are inverse to each other on canonical bencode, and
nothing else is accepted. -/
theorem parser_exact (data : Bytes) (small : data.length < 2 ^ 64) :
    ((∃ value after, parse data = .ok (value, after)) ↔
      ∃ value, Canonical value ∧ encode value = data) ∧
    (∀ value, Canonical value → encode value = data → ∃ after, parse data = .ok (value, after)) ∧
    (∀ value after, parse data = .ok (value, after) → Canonical value ∧ encode value = data) := by
  refine ⟨⟨?_, ?_⟩, ?_, ?_⟩
  · rintro ⟨value, after, parsed⟩
    exact ⟨value, (parse_accepts_iff data value small).mp ⟨after, parsed⟩⟩
  · rintro ⟨value, canonical⟩
    exact ⟨value, (parse_accepts_iff data value small).mpr canonical⟩
  · intro value canonical encoded
    exact (parse_accepts_iff data value small).mpr ⟨canonical, encoded⟩
  · intro value after parsed
    exact (parse_accepts_iff data value small).mp ⟨after, parsed⟩

theorem parser_exact_dictionary :
    Canonical (.dict [(ascii "a", .list [.int (-7)])]) ∧
      ∃ after, parse (ascii "d1:ali-7eee") = .ok (.dict [(ascii "a", .list [.int (-7)])], after) := by
  have canonical : Canonical (.dict [(ascii "a", .list [.int (-7)])]) := by
    simp [Canonical, WellFormed, WellFormedEntries, WellFormedItems, nesting, nestingEntries,
      nestingItems, kMaxDepth, int64Min, int64Max]
  exact ⟨canonical, (parser_exact (ascii "d1:ali-7eee") (by decide)).2.1 _ canonical (by decide)⟩

end TorrentPeer.BencodeParser
