import TorrentPeer.Metainfo.Geometry

/-! The span the parser records is the one of the root `info` value, so the info hash
covers exactly that value's encoding. -/

namespace TorrentPeer.BencodeParser

open Splice Bencode

def SameSpan (state after : State) : Prop :=
  after.infoStart = state.infoStart ∧ after.infoEnd = state.infoEnd

section Nested

variable (data : Bytes)

def SpanKept {α : Type} (least : Nat) (parser : State → Except Exn (α × State)) : Prop :=
  ∀ state result after, least ≤ state.depth → state.depth ≤ kMaxDepth →
    parser state = .ok (result, after) → SameSpan state after

theorem parseList_span (fuel : Nat) (items : ∀ before, SpanKept 1 (fun s => parseItems data fuel s before)) :
    SpanKept 1 (parseList data (fuel + 1)) := by
  intro state value after inner _ parsed
  simp only [parseList] at parsed
  split at parsed
  · cases parsed
  obtain ⟨⟨parsed_items, last⟩, loop, result⟩ := bind_ok parsed
  cases result
  obtain ⟨start, stop⟩ := items [] { state with depth := state.depth + 1, pos := state.pos + 1 } _ last
    (by dsimp only; omega) (by dsimp only; omega) loop
  exact ⟨start, stop⟩

theorem parseDict_span (fuel : Nat)
    (entries : ∀ before, (before.map Prod.fst).Pairwise (· < ·) →
      SpanKept 2 (fun s => parseEntries data fuel s before)) :
    SpanKept 1 (parseDict data (fuel + 1)) := by
  intro state value after inner _ parsed
  simp only [parseDict] at parsed
  split at parsed
  · cases parsed
  obtain ⟨⟨parsed_entries, last⟩, loop, result⟩ := bind_ok parsed
  cases result
  obtain ⟨start, stop⟩ := entries [] (by simp)
    { state with depth := state.depth + 1, pos := state.pos + 1 } _ last (by dsimp only; omega)
    (by dsimp only; omega) loop
  exact ⟨start, stop⟩

theorem parseValue_span (fuel : Nat) (list : SpanKept 1 (parseList data fuel))
    (dict : SpanKept 1 (parseDict data fuel)) : SpanKept 1 (parseValue data (fuel + 1)) := by
  intro state value after inner shallow parsed
  simp only [parseValue] at parsed
  split at parsed
  · cases parsed
  rename_i byte located
  split at parsed
  · rename_i is_int
    subst is_int
    obtain ⟨number, -, -, -, -, after_is⟩ := parseInt_sound data state after value located parsed
    rw [after_is]
    exact ⟨rfl, rfl⟩
  split at parsed
  · exact list state value after inner shallow parsed
  split at parsed
  · exact dict state value after inner shallow parsed
  split at parsed
  · obtain ⟨⟨text, middle⟩, read, result⟩ := bind_ok parsed
    cases result
    rw [(readString_sound data state after text read).2]
    exact ⟨rfl, rfl⟩
  · cases parsed

theorem parseItems_span (fuel : Nat) (value : SpanKept 1 (parseValue data fuel))
    (items : ∀ before, SpanKept 1 (fun s => parseItems data fuel s before)) (before : List BencodeValue) :
    SpanKept 1 (fun s => parseItems data (fuel + 1) s before) := by
  intro state result after inner shallow parsed
  simp only [parseItems] at parsed
  split at parsed
  · cases parsed
  split at parsed
  · cases parsed
    exact ⟨rfl, rfl⟩
  obtain ⟨⟨item, middle⟩, head, rest⟩ := bind_ok parsed
  obtain ⟨-, -, taken⟩ := (grammar_sound data fuel).1 state item middle shallow (fun _ _ => trivial) head
  obtain ⟨first, last⟩ := value state item middle inner shallow head
  obtain ⟨start, stop⟩ := items _ middle result after (by rw [taken.2.2]; exact inner)
    (by rw [taken.2.2]; exact shallow) rest
  exact ⟨start.trans first, stop.trans last⟩

theorem parseEntries_span (fuel : Nat) (value : SpanKept 1 (parseValue data fuel))
    (entries : ∀ before, (before.map Prod.fst).Pairwise (· < ·) →
      SpanKept 2 (fun s => parseEntries data fuel s before))
    (before : List (Bytes × BencodeValue)) (ascending : (before.map Prod.fst).Pairwise (· < ·)) :
    SpanKept 2 (fun s => parseEntries data (fuel + 1) s before) := by
  intro state result after inner shallow parsed
  rcases parseEntries_cases parsed with
    ⟨-, -, stays⟩ | ⟨key, keyed, item, middle, read, accepted, parsed_value, rest⟩
  · rw [stays]
    exact ⟨rfl, rfl⟩
  obtain ⟨-, -, key_taken, value_taken⟩ :=
    entry_taken data (grammar_sound data fuel).1 shallow read parsed_value
  have level := value_taken.2.2.trans key_taken.2.2
  -- below the root, a key called info is like any other
  have deeper : ¬ decide (keyed.depth = 1 ∧ key = ascii "info") = true := by
    rw [decide_eq_true_iff, key_taken.2.2]
    omega
  rw [opening, if_neg deeper] at parsed_value
  rw [closing, if_neg deeper] at rest level
  have unmoved : SameSpan state keyed := by
    rw [(readString_sound data state keyed key read).2]
    exact ⟨rfl, rfl⟩
  obtain ⟨first, last⟩ := value keyed item middle (by rw [key_taken.2.2]; omega)
    (by rw [key_taken.2.2]; exact shallow) parsed_value
  obtain ⟨start, stop⟩ := entries _ (keys_extend before key item ascending accepted) middle result after
    (by rw [level]; exact inner) (by rw [level]; exact shallow) rest
  exact ⟨start.trans (first.trans unmoved.1), stop.trans (last.trans unmoved.2)⟩

theorem nested_span (fuel : Nat) :
    SpanKept 1 (parseValue data fuel) ∧ SpanKept 1 (parseList data fuel) ∧
      SpanKept 1 (parseDict data fuel) ∧
      (∀ before, SpanKept 1 (fun s => parseItems data fuel s before)) ∧
      (∀ before, (before.map Prod.fst).Pairwise (· < ·) →
        SpanKept 2 (fun s => parseEntries data fuel s before)) := by
  induction fuel with
  | zero =>
    refine ⟨?_, ?_, ?_, ?_, ?_⟩
    · intro state value after _ _ parsed
      cases parsed
    · intro state value after _ _ parsed
      cases parsed
    · intro state value after _ _ parsed
      cases parsed
    · intro before state items after _ _ parsed
      cases parsed
    · intro before _ state entries after _ _ parsed
      cases parsed
  | succ fuel ih =>
    obtain ⟨value, list, dict, items, entries⟩ := ih
    exact ⟨parseValue_span data fuel list dict, parseList_span data fuel items,
      parseDict_span data fuel entries, parseItems_span data fuel value items,
      parseEntries_span data fuel value entries⟩

end Nested

section Root

variable {data : Bytes}

/-- Where the value of the root key `info` was read, if there was one. -/
inductive Spanned (data : Bytes) (state after : State) (more : List (Bytes × BencodeValue)) : Prop
  | absent (none_read : ascii "info" ∉ more.map Prod.fst) (same : SameSpan state after)
  | recorded (front rest : List (Bytes × BencodeValue)) (value : BencodeValue)
      (split : more = front ++ (ascii "info", value) :: rest)
      (start : after.infoStart = state.pos + (encodeEntries front ++ encodeString (ascii "info")).length)
      (stop : after.infoEnd = after.infoStart + (encode value).length)
      (content : remaining data after.infoStart = encode value ++ remaining data after.infoEnd)

/-- The loop over the root dictionary, by induction on the fuel: a binding of another key
leaves the span to the rest, and after `info` no second one can follow. -/
theorem root_span (fuel : Nat) (state after : State) (before entries : List (Bytes × BencodeValue))
    (level : state.depth = 1) (ascending : (before.map Prod.fst).Pairwise (· < ·))
    (parsed : parseEntries data fuel state before = .ok (entries, after)) :
    ∃ more, entries = before ++ more ∧ Spanned data state after more := by
  induction fuel generalizing state before with
  | zero => cases parsed
  | succ fuel ih =>
    have shallow : state.depth ≤ kMaxDepth := by
      rw [level]
      decide
    obtain ⟨-, -, -, sorted, -, -, -⟩ :=
      (grammar_sound data (fuel + 1)).2.2.2.2 state before entries after shallow ascending parsed
    rcases parseEntries_cases parsed with
      ⟨-, same, stays⟩ | ⟨key, keyed, item, middle, read, accepted, parsed_value, rest⟩
    · exact ⟨[], by simp [same], .absent (by simp) (by rw [stays]; exact ⟨rfl, rfl⟩)⟩
    obtain ⟨-, -, key_taken, value_taken⟩ :=
      entry_taken data (grammar_sound data fuel).1 shallow read parsed_value
    have keyed_is := (readString_sound data state keyed key read).2
    have depth := key_taken.2.2.trans level
    obtain ⟨more, whole, spanned⟩ := ih _ _ ((value_taken.2.2.trans key_taken.2.2).trans level)
      (keys_extend before key item ascending accepted) rest
    refine ⟨(key, item) :: more, by rw [whole]; simp, ?_⟩
    have inner := opening_cursor key keyed
    obtain ⟨first, last⟩ := (nested_span data fuel).1 _ item middle (by rw [inner.2, depth])
      (by rw [inner.2, depth]; decide) parsed_value
    have unmoved : SameSpan state keyed := by
      rw [keyed_is]
      exact ⟨rfl, rfl⟩
    by_cases named : key = ascii "info"
    · have here : decide (keyed.depth = 1 ∧ key = ascii "info") = true := by
        rw [decide_eq_true_iff]
        exact ⟨depth, named⟩
      have opened : (opening key keyed).infoStart = keyed.pos := by rw [opening, if_pos here]
      have closed : closing key keyed.depth middle = { middle with infoEnd := middle.pos } := by
        rw [closing, if_pos here]
      rw [closed] at spanned value_taken
      have once : ascii "info" ∉ more.map Prod.fst := by
        intro again
        rw [whole, List.append_assoc, List.map_append, List.pairwise_append] at sorted
        have above := (List.pairwise_cons.mp sorted.2.1).1 (ascii "info") again
        rw [named] at above
        exact absurd above (List.lt_irrefl _)
      have kept : SameSpan { middle with infoEnd := middle.pos } after := by
        cases spanned with
        | absent none_read same => exact same
        | recorded front tail value split start stop content =>
          exact absurd (by rw [split]; simp) once
      obtain ⟨content, position, -⟩ := value_taken
      refine .recorded [] more item (by rw [named]; rfl) ?_ ?_ ?_
      · rw [kept.1]
        show middle.infoStart = _
        rw [first, opened, key_taken.2.1, named]
        rfl
      · rw [kept.2, kept.1]
        show middle.pos = middle.infoStart + _
        rw [first, opened]
        exact position
      · rw [kept.2, kept.1]
        show remaining data middle.infoStart = _ ++ remaining data middle.pos
        rw [first, opened]
        exact content
    · have elsewhere : ¬ decide (keyed.depth = 1 ∧ key = ascii "info") = true := by
        rw [decide_eq_true_iff]
        exact fun both => named both.2
      have opened : opening key keyed = keyed := by rw [opening, if_neg elsewhere]
      have closed : closing key keyed.depth middle = middle := by rw [closing, if_neg elsewhere]
      rw [opened] at first last
      rw [closed] at spanned value_taken
      cases spanned with
      | absent none_read same =>
        refine .absent ?_ ⟨same.1.trans (first.trans unmoved.1), same.2.trans (last.trans unmoved.2)⟩
        rw [List.map_cons, List.mem_cons, not_or]
        exact ⟨fun same => named same.symm, none_read⟩
      | recorded front tail value split start stop content =>
        refine .recorded ((key, item) :: front) tail value (by rw [split]; rfl) ?_ stop content
        rw [start, value_taken.2.1, key_taken.2.1, encodeEntries]
        simp only [List.length_append]
        omega

end Root

end TorrentPeer.BencodeParser

namespace TorrentPeer.Torrent

open Splice Bencode BencodeValue BencodeParser

def rootInfo (data : Bytes) : Option BencodeValue :=
  match parse data with
  | .ok (.dict entries, _) => lookup entries "info"
  | _ => none

theorem getDict_ok (value : BencodeValue) (entries : List (Bytes × BencodeValue))
    (read : value.getDict = .ok entries) : value = .dict entries := by
  cases value with
  | dict items =>
    cases read
    rfl
  | int _ => cases read
  | str _ => cases read
  | list _ => cases read

theorem rootDict_ok (root : BencodeValue) (entries : List (Bytes × BencodeValue))
    (read : rootDict root = .ok entries) : root = .dict entries := by
  cases root with
  | dict items =>
    cases read
    rfl
  | int _ => cases read
  | str _ => cases read
  | list _ => cases read

theorem infoDict_ok (entries fields : List (Bytes × BencodeValue))
    (read : infoDict entries = .ok fields) : lookup entries "info" = some (.dict fields) := by
  unfold infoDict at read
  split at read
  · cases read
  · rename_i value located
    rw [located, getDict_ok value fields read]

theorem accepted_info (sha1 : Bytes → Bytes) (data : Bytes) (t : TorrentFile)
    (accepted : parseTorrent sha1 data = .ok t) :
    ∃ entries fields after, parse data = .ok (.dict entries, after) ∧
      lookup entries "info" = some (.dict fields) ∧
      t.infoHash = sha1 (slice data after.infoStart (after.infoEnd - after.infoStart)) := by
  obtain ⟨fields, read, rest⟩ := bind_ok accepted
  iterate 4 obtain ⟨_, _, rest⟩ := bind_ok rest
  cases rest
  obtain ⟨⟨root, after⟩, parsed, rest⟩ := bind_ok read
  obtain ⟨entries, dict_read, rest⟩ := bind_ok rest
  obtain ⟨info, info_read, rest⟩ := bind_ok rest
  refine ⟨entries, info, after, ?_, infoDict_ok entries info info_read, ?_⟩
  · rw [parsed, rootDict_ok root entries dict_read]
  · repeat
      first
      | cases rest; rfl
      | obtain ⟨_, _, rest⟩ := bind_ok rest

theorem root_loop {data : Bytes} {fuel : Nat} {entries : List (Bytes × BencodeValue)} {after : State}
    (parsed : parseValue data fuel start = .ok (.dict entries, after)) :
    ∃ state, state.depth = 1 ∧ state.pos = 1 ∧ ∃ inner body,
      parseEntries data inner state [] = .ok (entries, body) ∧ body.infoStart = after.infoStart ∧
        body.infoEnd = after.infoEnd := by
  cases fuel with
  | zero => cases parsed
  | succ fuel =>
    simp only [parseValue] at parsed
    split at parsed
    · cases parsed
    rename_i byte located
    split at parsed
    · rename_i is_int
      subst is_int
      obtain ⟨number, result_eq, -⟩ := parseInt_sound data start after _ located parsed
      cases result_eq
    split at parsed
    · cases fuel with
      | zero => cases parsed
      | succ fuel =>
        rw [parseList] at parsed
        split at parsed
        · cases parsed
        obtain ⟨_, _, result⟩ := bind_ok parsed
        cases result
    split at parsed
    · cases fuel with
      | zero => cases parsed
      | succ fuel =>
        rw [parseDict] at parsed
        split at parsed
        · cases parsed
        obtain ⟨⟨found, body⟩, loop, result⟩ := bind_ok parsed
        cases result
        exact ⟨_, rfl, rfl, fuel, body, loop, rfl, rfl⟩
    split at parsed
    · obtain ⟨_, _, result⟩ := bind_ok parsed
      cases result
    · cases parsed

theorem parse_span (data : Bytes) (entries : List (Bytes × BencodeValue)) (after : State)
    (parsed : parse data = .ok (.dict entries, after)) (value : BencodeValue)
    (bound : lookup entries "info" = some value) :
    ∃ front rest, entries = front ++ (ascii "info", value) :: rest ∧
      after.infoStart = (100 :: encodeEntries front ++ encodeString (ascii "info")).length ∧
      after.infoEnd = after.infoStart + (encode value).length ∧
      slice data after.infoStart (after.infoEnd - after.infoStart) = encode value := by
  obtain ⟨⟨root, last⟩, inner, checked⟩ := bind_ok parsed
  dsimp only at checked
  split at checked
  · cases checked
  cases checked
  obtain ⟨state, level, place, fuel, body, loop, start_is, stop_is⟩ := root_loop inner
  obtain ⟨more, whole, spanned⟩ := root_span fuel state body [] entries level (by simp) loop
  obtain ⟨-, -, -, sorted, -, -, -⟩ := (grammar_sound data fuel).2.2.2.2 state [] entries body
    (by rw [level]; decide) (by simp) loop
  rw [List.nil_append] at whole
  subst whole
  obtain ⟨entry, located, same⟩ := Option.map_eq_some_iff.mp bound
  have named : entry.1 = ascii "info" := by simpa using List.find?_some located
  have member := List.mem_of_find?_eq_some located
  cases spanned with
  | absent none_read unmoved => exact absurd (List.mem_map.mpr ⟨entry, member, named⟩) none_read
  | recorded front rest held split first last content =>
    have only : held = value := by
      rw [← same]
      rw [split] at sorted located
      have before : front.find? (fun entry => decide (entry.1 = ascii "info")) = none := by
        rw [List.find?_eq_none]
        intro other inside
        rw [List.map_append, List.pairwise_append] at sorted
        have below := sorted.2.2 other.1 (List.mem_map_of_mem inside) (ascii "info") (by simp)
        rw [decide_eq_true_iff]
        intro equal
        rw [equal] at below
        exact absurd below (List.lt_irrefl _)
      rw [List.find?_append, before, Option.none_or] at located
      simp only [List.find?_cons, decide_true, Option.some.injEq] at located
      rw [← located]
    rw [← only]
    rw [start_is] at first last content
    rw [stop_is] at last content
    refine ⟨front, rest, split, ?_, last, ?_⟩
    · rw [first, place]
      simp only [List.cons_append, List.length_cons]
      omega
    · rw [last, Nat.add_sub_cancel_left]
      exact remaining_slice data _ _ _ content

theorem entry_infix (fields : List (Bytes × BencodeValue)) (key : Bytes) (value : BencodeValue)
    (member : (key, value) ∈ fields) :
    encodeString key ++ encode value <:+: encode (.dict fields) := by
  obtain ⟨front, rest, split⟩ := List.append_of_mem member
  refine ⟨100 :: encodeEntries front, encodeEntries rest ++ [101], ?_⟩
  rw [split, encode, encodeEntries_append, encodeEntries]
  simp

/-- The info hash covers exactly the root `info` value: the recorded span is the one of that
binding, its bytes are the value's encoding with every key in it, and nothing else of the
file matters. -/
theorem info_hash_exact (sha1 : Bytes → Bytes) (data : Bytes) (t : TorrentFile)
    (accepted : parseTorrent sha1 data = .ok t) :
    (∃ front rest fields after,
      parse data = .ok (.dict (front ++ (ascii "info", .dict fields) :: rest), after) ∧
      rootInfo data = some (.dict fields) ∧
      getInfoRange after =
        ((100 :: encodeEntries front ++ encodeString (ascii "info")).length,
          (100 :: encodeEntries front ++ encodeString (ascii "info") ++ encode (.dict fields)).length) ∧
      slice data (getInfoRange after).1 ((getInfoRange after).2 - (getInfoRange after).1) =
        encode (.dict fields) ∧
      t.infoHash = sha1 (encode (.dict fields)) ∧
      ∀ key value, (key, value) ∈ fields →
        encodeString key ++ encode value <:+: encode (.dict fields)) ∧
    ∀ other torrent, parseTorrent sha1 other = .ok torrent → rootInfo other = rootInfo data →
      torrent.infoHash = t.infoHash := by
  have hashed : ∀ input torrent, parseTorrent sha1 input = .ok torrent →
      ∃ fields, rootInfo input = some (.dict fields) ∧ torrent.infoHash = sha1 (encode (.dict fields)) := by
    intro input torrent taken
    obtain ⟨entries, fields, after, parsed, bound, digest⟩ := accepted_info sha1 input torrent taken
    obtain ⟨-, -, -, -, -, bytes⟩ := parse_span input entries after parsed _ bound
    refine ⟨fields, ?_, by rw [digest, bytes]⟩
    rw [rootInfo, parsed]
    exact bound
  refine ⟨?_, ?_⟩
  · obtain ⟨entries, fields, after, parsed, bound, digest⟩ := accepted_info sha1 data t accepted
    obtain ⟨front, rest, split, first, last, bytes⟩ := parse_span data entries after parsed _ bound
    subst split
    refine ⟨front, rest, fields, after, parsed, ?_, ?_, bytes, by rw [digest, bytes],
      fun key value member => entry_infix fields key value member⟩
    · rw [rootInfo, parsed]
      exact bound
    · rw [getInfoRange, last, first, ← List.length_append]
  · intro other torrent taken same
    obtain ⟨fields, info, digest⟩ := hashed data t accepted
    obtain ⟨others, found, equal⟩ := hashed other torrent taken
    rw [same, info] at found
    cases found
    rw [equal, digest]

def nestedInfo : Bytes :=
  ascii "d1:ad4:infoi1ee4:infod6:lengthi1e4:name1:a12:piece lengthi1e6:pieces20:" ++
    List.replicate 20 0 ++ ascii "1:xi7eee"

theorem info_hash_exact_nested :
    ∃ t fields, parseTorrent (fun bytes => bytes) nestedInfo = .ok t ∧
      rootInfo nestedInfo = some (.dict fields) ∧ t.infoHash = encode (.dict fields) := by
  have present : (parseTorrent (fun bytes => bytes) nestedInfo).toOption.isSome = true := by decide +kernel
  obtain ⟨t, read⟩ := Option.isSome_iff_exists.mp present
  have outcome := toOption_ok read
  obtain ⟨⟨-, -, fields, -, -, info, -, -, digest, -⟩, -⟩ :=
    info_hash_exact (fun bytes => bytes) nestedInfo t outcome
  exact ⟨t, fields, outcome, info, digest⟩

end TorrentPeer.Torrent
