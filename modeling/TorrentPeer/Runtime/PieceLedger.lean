import TorrentPeer.Runtime.PieceStates

/-! Every operation keeps `PieceManager` valid and moves exactly one request in or
out of the requested set. -/

namespace TorrentPeer.PieceManager

open Splice Torrent

theorem count_received_set (states : List BlockState) (b : Nat) (old new : BlockState)
    (located : states[b]? = some old) :
    (states.set b new).count .received + (if old = .received then 1 else 0) =
      states.count .received + (if new = .received then 1 else 0) := by
  obtain ⟨bound, value⟩ := List.getElem?_eq_some_iff.mp located
  have present : old = .received → 0 < states.count .received := by
    intro same
    exact List.count_pos_iff.mpr (same ▸ List.mem_of_getElem? located)
  rw [List.count_set bound, value]
  simp only [beq_iff_eq]
  split
  · rename_i same
    have positive := present same
    omega
  · omega

theorem freshPiece_missing (t : TorrentFile) (index : Nat) (state : BlockState)
    (member : state ∈ (freshPiece t index).states) : state = .missing :=
  List.eq_of_mem_replicate member

section Storing

variable {t : TorrentFile} {pieces : PieceManager} (valid : Valid t pieces)

include valid

theorem store_valid (index : Nat) (pp next : PartialPiece)
    (found : pieces.active.find? index = some pp) (part : PartialValid t index next) :
    Valid t { pieces with active := pieces.active.modify index (fun _ => next) } := by
  refine ⟨valid.torrent, valid.pieceCount, valid.bits, valid.bytes, ?_, valid.haves⟩
  intro other stored located
  simp only [Table.find_modify] at located
  split at located
  · rename_i same
    subst same
    rw [found, Option.map_some] at located
    cases located
    obtain ⟨counted, wanted, -⟩ := valid.parts other pp found
    exact ⟨counted, wanted, part⟩
  · exact valid.parts other stored located

omit valid in
theorem unreceived_valid (index b : Nat) (pp : PartialPiece) (old new : BlockState)
    (part : PartialValid t index pp) (located : pp.states[b]? = some old)
    (before : old ≠ .received) (after : new ≠ .received) :
    PartialValid t index { pp with states := pp.states.set b new } := by
  have counted := count_received_set pp.states b old new located
  rw [if_neg before, if_neg after] at counted
  refine ⟨part.data, ?_, ?_, ?_⟩
  · rw [List.length_set, part.states]
  · rw [part.received]
    exact counted.symm
  · rw [List.length_set]
    exact part.unfinished

end Storing

section Picks

variable {t : TorrentFile} {pieces opened next : PieceManager} {peerHas : Bitfield} {tag : Nat}
  {req : BlockRequest} {pp : PartialPiece} {b : Nat}
  (picked : Picked t pieces opened next peerHas tag req pp b)

include picked

theorem Picked.next_valid : Valid t next := by
  obtain ⟨-, -, part⟩ := picked.valid.parts req.pieceIndex pp picked.found
  rw [picked.stored]
  exact store_valid picked.valid _ pp _ picked.found
    (unreceived_valid _ b pp .missing .requested part picked.missing (by decide) (by decide))

theorem Picked.opened_state (index place : Nat) :
    opened.stateAt index place = some .requested ↔ pieces.stateAt index place = some .requested := by
  rcases picked.opening with same | ⟨fresh, absent⟩
  · rw [same]
  · subst fresh
    simp only [stateAt, activate, Table.find_emplace _ _ _ _ absent]
    by_cases here : index = req.pieceIndex
    · rw [if_pos here, Option.bind_some, here, absent, Option.bind_none]
      constructor
      · intro requested
        exact absurd (freshPiece_missing _ _ _ (List.mem_of_getElem? requested)) (by decide)
      · intro requested
        cases requested
    · rw [if_neg here]

theorem Picked.same_have : next.have_ = pieces.have_ := by
  rw [picked.stored]
  rcases picked.opening with same | ⟨fresh, -⟩
  · rw [same]
  · rw [fresh]
    rfl

theorem Picked.was_free (valid : Valid t pieces) : pieces.isRequested req = false := by
  have state := picked.opened_state req.pieceIndex b
  rw [stateAt_found opened _ pp picked.found, picked.missing] at state
  rw [picked.request, ← valid.torrent, isRequested_requestOf, decide_eq_false_iff_not, ← state]
  decide

theorem Picked.requests (valid : Valid t pieces) (r : BlockRequest) :
    next.isRequested r = (decide (r = req) || pieces.isRequested r) := by
  obtain ⟨bound, -⟩ := List.getElem?_eq_some_iff.mp picked.missing
  have states := stateAt_modify opened req.pieceIndex pp
    { pp with states := pp.states.set b .requested } b .requested picked.found bound rfl
  have torrent : next.torrent = t := by
    rw [picked.stored]
    exact picked.valid.torrent
  by_cases same : r = req
  · subst same
    rw [decide_eq_true rfl, Bool.true_or, picked.request, ← torrent, isRequested_requestOf,
      decide_eq_true_eq, picked.stored, states, if_pos ⟨rfl, rfl⟩]
  · rw [decide_eq_false same, Bool.false_or]
    by_cases formed : r = requestOf t r.pieceIndex (r.offset / kBlockSize)
    · have elsewhere : ¬ (r.pieceIndex = req.pieceIndex ∧ r.offset / kBlockSize = b) := by
        rintro ⟨index, place⟩
        apply same
        rw [formed, place, index]
        exact picked.request.symm
      refine isRequested_congr pieces next (by rw [torrent, valid.torrent]) r ?_
      rw [picked.stored, states, if_neg elsewhere]
      exact picked.opened_state _ _
    · simp only [isRequested, torrent, valid.torrent, formed, false_and]

end Picks

theorem isRequested_remove {t : TorrentFile} {pieces next : PieceManager}
    (before : pieces.torrent = t) (after : next.torrent = t) (index b : Nat)
    (states : ∀ other place, next.stateAt other place = some .requested ↔
      ¬ (other = index ∧ place = b) ∧ pieces.stateAt other place = some .requested)
    (r : BlockRequest) :
    next.isRequested r = (pieces.isRequested r && decide (r ≠ requestOf t index b)) := by
  by_cases formed : r = requestOf t r.pieceIndex (r.offset / kBlockSize)
  · have named : r = requestOf t index b ↔ r.pieceIndex = index ∧ r.offset / kBlockSize = b := by
      constructor
      · intro same
        rw [same]
        exact ⟨rfl, Nat.mul_div_cancel b (by decide)⟩
      · rintro ⟨same, place⟩
        rw [formed, same, place]
    rw [← Bool.coe_iff_coe]
    simp only [isRequested, before, after, ← formed, true_and, decide_eq_true_eq, Bool.and_eq_true,
      ne_eq, named, states]
    exact and_comm
  · simp only [isRequested, before, after, formed, false_and, decide_false, Bool.false_and]

section Marking

theorem countP_insert (count index : Nat) (before after : Nat → Bool) (inside : index < count)
    (absent : before index = false)
    (stored : ∀ j, after j = (decide (j = index) || before j)) :
    (List.range count).countP after = (List.range count).countP before + 1 := by
  induction count with
  | zero => omega
  | succ count ih =>
    rw [List.range_succ, List.countP_append, List.countP_append, List.countP_singleton,
      List.countP_singleton]
    by_cases last : index = count
    · subst last
      have same : (List.range index).countP after = (List.range index).countP before := by
        apply List.countP_congr
        intro j member
        have smaller := List.mem_range.mp member
        rw [stored j, decide_eq_false (by omega), Bool.false_or]
      have here : after index = true := by
        rw [stored index, decide_eq_true rfl, Bool.true_or]
      rw [same, if_pos here, absent]
      rfl
    · have unchanged : after count = before count := by
        rw [stored count, decide_eq_false (by omega), Bool.false_or]
      rw [unchanged, ih (by omega)]
      omega

variable {t : TorrentFile} {pieces next : PieceManager} (valid : Valid t pieces)

include valid

theorem markHave_valid (index : Nat) (counted : index < pieces.pieceCount)
    (wanted : pieces.have_.get index = false) (idle : pieces.active.find? index = none)
    (marked : markHave pieces index = .ok next) :
    Valid t next ∧ next.active = pieces.active ∧ next.torrent = t ∧
      ∀ j, next.have_.get j = (decide (j = index) || pieces.have_.get j) := by
  obtain ⟨field, stored, rest⟩ := bind_ok marked
  cases rest
  have bits := Bitfield.set_get pieces.have_ field index
  obtain ⟨size, -, width⟩ := Bitfield.set_bits pieces.have_ field index stored
  have more := countP_insert pieces.pieceCount index pieces.have_.get field.get counted wanted
    (fun j => bits j stored)
  have bounded : (List.range pieces.pieceCount).countP field.get ≤ pieces.pieceCount := by
    have least := List.countP_le_length (p := field.get) (l := List.range pieces.pieceCount)
    rw [List.length_range] at least
    exact least
  have small : pieces.pieceCount < 2 ^ 32 := by
    rw [valid.pieceCount]
    exact Nat.mod_lt _ (by decide)
  refine ⟨⟨valid.torrent, valid.pieceCount, by rw [size]; exact valid.bits,
    by rw [width]; exact valid.bytes, ?_, ?_⟩, rfl, valid.torrent, fun j => bits j stored⟩
  · intro other pp found
    obtain ⟨inside, unverified, part⟩ := valid.parts other pp found
    refine ⟨inside, ?_, part⟩
    have different : other ≠ index := by
      rintro rfl
      rw [idle] at found
      cases found
    dsimp only
    rw [bits other stored, decide_eq_false different, Bool.false_or]
    exact unverified
  · dsimp only
    rw [more, valid.haves, Nat.mod_eq_of_lt (by have haves := valid.haves; omega)]

end Marking

section Filing

/-- The checks of `on_block` passed: the block fits an open slot of an active piece. -/
structure Fits (pieces : PieceManager) (block : Block) (pp : PartialPiece) (b : Nat) : Prop where
  counted : block.pieceIndex < pieces.pieceCount
  wanted : pieces.have_.get block.pieceIndex = false
  found : pieces.active.find? block.pieceIndex = some pp
  offset : block.offset = b * kBlockSize
  bound : b < pp.states.length
  inside : block.offset + block.data.length ≤ pp.data.length
  unreceived : pp.states[b]? ≠ some .received

theorem onBlock_split (sha1 : Bytes → Bytes) (pieces : PieceManager) (block : Block) :
    onBlock sha1 pieces block = .ok (⟨.rejected, ⟨0, []⟩⟩, pieces) ∨
      ∃ pp b, Fits pieces block pp b ∧
        onBlock sha1 pieces block = fileBlock sha1 pieces block b pp := by
  unfold onBlock
  dsimp only
  split
  · exact Or.inl rfl
  rename_i counted
  split
  · exact Or.inl rfl
  rename_i wanted
  split
  · exact Or.inl rfl
  rename_i pp found
  split
  · exact Or.inl rfl
  rename_i aligned
  split
  · exact Or.inl rfl
  rename_i bound
  split
  · exact Or.inl rfl
  rename_i inside
  split
  · exact Or.inl rfl
  rename_i unreceived
  refine Or.inr ⟨pp, block.offset / kBlockSize, ?_, rfl⟩
  have exact_offset : block.offset = block.offset / kBlockSize * kBlockSize := by
    have division := Nat.div_add_mod block.offset kBlockSize
    have remainder : block.offset % kBlockSize = 0 := Classical.not_not.mp aligned
    rw [remainder, Nat.add_zero, Nat.mul_comm] at division
    exact division.symm
  exact ⟨Nat.lt_of_not_le counted, by simpa using wanted, found, exact_offset, Nat.lt_of_not_le bound,
    Nat.le_of_not_lt inside, unreceived⟩

theorem onBlock_cases (sha1 : Bytes → Bytes) (pieces next : PieceManager) (block : Block)
    (result : BlockResult) (filed : onBlock sha1 pieces block = .ok (result, next)) :
    (result.status = .rejected ∧ next = pieces) ∨
      ∃ pp b, Fits pieces block pp b ∧ fileBlock sha1 pieces block b pp = .ok (result, next) := by
  rcases onBlock_split sha1 pieces block with rejected | ⟨pp, b, fits, same⟩
  · rw [rejected] at filed
    cases filed
    exact Or.inl ⟨rfl, rfl⟩
  · exact Or.inr ⟨pp, b, fits, same ▸ filed⟩

variable {t : TorrentFile} (geometry : Geometry t) {pieces : PieceManager} (valid : Valid t pieces)
  {block : Block} {pp : PartialPiece} {b : Nat} (fits : Fits pieces block pp b)

include geometry valid fits

theorem filedPiece_facts :
    (filedPiece pp block b).received = pp.received + 1 ∧
      (filedPiece pp block b).received = (filedPiece pp block b).states.count .received ∧
      (filedPiece pp block b).states.length = blockCount t block.pieceIndex ∧
      (filedPiece pp block b).data.length = pieceSize t block.pieceIndex := by
  obtain ⟨counted, -, part⟩ := valid.parts block.pieceIndex pp fits.found
  have few := (blockCount_bound geometry block.pieceIndex (valid.inside _ counted)).2
  have open_slots := part.unfinished
  have slots := part.states
  obtain ⟨old, located⟩ : ∃ old, pp.states[b]? = some old :=
    ⟨_, List.getElem?_eq_getElem fits.bound⟩
  have old_open : old ≠ .received := by
    rintro rfl
    exact fits.unreceived located
  have more := count_received_set pp.states b old .received located
  rw [if_neg old_open, if_pos rfl] at more
  have received : (filedPiece pp block b).received = pp.received + 1 :=
    Nat.mod_eq_of_lt (by omega)
  refine ⟨received, ?_, ?_, ?_⟩
  · rw [received, part.received]
    exact more.symm
  · rw [filedPiece, List.length_set, part.states]
  · rw [filedPiece, splice_length _ _ _ fits.inside, part.data]

theorem filedPiece_full
    (full : ¬ (filedPiece pp block b).received < (filedPiece pp block b).states.length) :
    ∀ state ∈ (filedPiece pp block b).states, state = .received := by
  obtain ⟨-, counted, -, -⟩ := filedPiece_facts geometry valid fits
  have most := List.count_le_length (a := BlockState.received) (l := (filedPiece pp block b).states)
  have all := List.count_eq_length.mp
    (show (filedPiece pp block b).states.count .received = (filedPiece pp block b).states.length by omega)
  exact fun state member => (all state member).symm

/-- What filing a block that fits can do. -/
inductive Verdict (sha1 : Bytes → Bytes) (pieces : PieceManager) (block : Block) (pp : PartialPiece)
    (b : Nat) : BlockResult → PieceManager → Prop
  | incomplete
      (short : (filedPiece pp block b).received < (filedPiece pp block b).states.length) :
      Verdict sha1 pieces block pp b ⟨.incomplete, ⟨0, []⟩⟩
        { pieces with active := pieces.active.modify block.pieceIndex (fun _ => filedPiece pp block b) }
  | failed
      (full : ¬ (filedPiece pp block b).received < (filedPiece pp block b).states.length)
      (wrong : verify sha1 pieces block.pieceIndex (filedPiece pp block b).data = false) :
      Verdict sha1 pieces block pp b ⟨.pieceFailed, ⟨block.pieceIndex, (filedPiece pp block b).data⟩⟩
        { pieces with active := pieces.active.modify block.pieceIndex (fun _ => resetPiece (filedPiece pp block b)) }
  | verified (marked : PieceManager)
      (full : ¬ (filedPiece pp block b).received < (filedPiece pp block b).states.length)
      (right : verify sha1 pieces block.pieceIndex (filedPiece pp block b).data = true)
      (stored : markHave { pieces with active := pieces.active.erase block.pieceIndex } block.pieceIndex
        = .ok marked) :
      Verdict sha1 pieces block pp b
        ⟨.pieceVerified, ⟨block.pieceIndex, (filedPiece pp block b).data⟩⟩ marked

omit geometry valid fits in
theorem fileBlock_verdict (sha1 : Bytes → Bytes) (result : BlockResult) (next : PieceManager)
    (filed : fileBlock sha1 pieces block b pp = .ok (result, next)) :
    Verdict sha1 pieces block pp b result next := by
  unfold fileBlock at filed
  dsimp only at filed
  split at filed
  · rename_i short
    cases filed
    exact Verdict.incomplete short
  · rename_i full
    split at filed
    · rename_i wrong
      cases filed
      exact Verdict.failed full wrong
    · rename_i right
      obtain ⟨marked, stored, rest⟩ := bind_ok filed
      cases rest
      exact Verdict.verified _ full (by simpa using right) stored

omit geometry in
theorem fileBlock_returns (sha1 : Bytes → Bytes) (few : pieces.pieceCount + 7 < 2 ^ 32) :
    ∃ result next, fileBlock sha1 pieces block b pp = .ok (result, next) := by
  obtain ⟨field, stored⟩ := Bitfield.set_succeeds pieces.have_ block.pieceIndex
    (valid.bits ▸ fits.counted) (by rw [valid.bits, valid.bytes]) (by rw [valid.bits]; exact few)
  rw [fileBlock]
  split
  · exact ⟨_, _, rfl⟩
  · split
    · exact ⟨_, _, rfl⟩
    · rw [markHave, stored]
      exact ⟨_, _, rfl⟩

theorem resetPiece_valid :
    PartialValid t block.pieceIndex (resetPiece (filedPiece pp block b)) := by
  obtain ⟨-, -, slots, size⟩ := filedPiece_facts geometry valid fits
  obtain ⟨counted, -, -⟩ := valid.parts block.pieceIndex pp fits.found
  have positive := (blockCount_bound geometry block.pieceIndex (valid.inside _ counted)).1
  refine ⟨size, ?_, ?_, ?_⟩
  · rw [resetPiece, List.length_map, slots]
  · rw [resetPiece, List.count_eq_zero.mpr]
    intro member
    obtain ⟨state, -, same⟩ := List.mem_map.mp member
    cases same
  · rw [resetPiece, List.length_map, slots]
    exact positive

omit geometry fits in
theorem erase_valid (index : Nat) :
    Valid t { pieces with active := pieces.active.erase index } := by
  refine ⟨valid.torrent, valid.pieceCount, valid.bits, valid.bytes, ?_, valid.haves⟩
  intro other part found
  simp only [Table.find_erase] at found
  split at found
  · cases found
  · exact valid.parts other part found

theorem Verdict.keeps_valid {sha1 : Bytes → Bytes} {result : BlockResult} {next : PieceManager}
    (verdict : Verdict sha1 pieces block pp b result next) : Valid t next := by
  obtain ⟨received, counted, slots, size⟩ := filedPiece_facts geometry valid fits
  cases verdict with
  | incomplete short => exact store_valid valid _ pp _ fits.found ⟨size, slots, counted, short⟩
  | failed full wrong =>
    exact store_valid valid _ pp _ fits.found (resetPiece_valid geometry valid fits)
  | verified _ full right stored =>
    exact (markHave_valid (erase_valid valid block.pieceIndex) block.pieceIndex fits.counted fits.wanted
      (by simp) stored).1

/-- Off the filed slot, no verdict changes which blocks are requested: a verdict on the
whole piece finds all its other slots received. -/
theorem Verdict.state {sha1 : Bytes → Bytes} {result : BlockResult} {next : PieceManager}
    (verdict : Verdict sha1 pieces block pp b result next) (index place : Nat) :
    next.stateAt index place = some .requested ↔
      ¬ (index = block.pieceIndex ∧ place = b) ∧ pieces.stateAt index place = some .requested := by
  have filed := stateAt_modify pieces block.pieceIndex pp (filedPiece pp block b) b .received
    fits.found fits.bound rfl index place
  -- on a full piece the filed states are all received, so nothing of it was requested
  have settled (full : ¬ (filedPiece pp block b).received < (filedPiece pp block b).states.length)
      (here : index = block.pieceIndex) :
      ¬ (¬ (index = block.pieceIndex ∧ place = b) ∧ pieces.stateAt index place = some .requested) := by
    rintro ⟨elsewhere, requested⟩
    rw [if_neg elsewhere, requested] at filed
    simp only [stateAt, Table.find_modify, here, if_true, fits.found, Option.map_some,
      Option.bind_some] at filed
    have received := filedPiece_full geometry valid fits full _ (List.mem_of_getElem? filed)
    cases received
  cases verdict with
  | incomplete short =>
    rw [filed]
    by_cases here : index = block.pieceIndex ∧ place = b
    · simp [here]
    · simp [here]
  | failed full wrong =>
    by_cases here : index = block.pieceIndex
    · refine ⟨?_, fun requested => absurd requested (settled full here)⟩
      intro requested
      simp only [stateAt, Table.find_modify, if_true, here, fits.found, Option.map_some,
        Option.bind_some] at requested
      obtain ⟨_, _, missing⟩ := List.mem_map.mp (List.mem_of_getElem? requested)
      cases missing
    · simp only [stateAt, Table.find_modify, here, if_false, false_and, not_false_eq_true, true_and]
  | verified _ full right stored =>
    have active := (markHave_valid (erase_valid valid block.pieceIndex) block.pieceIndex fits.counted
      fits.wanted (by simp) stored).2.1
    by_cases here : index = block.pieceIndex
    · refine ⟨?_, fun requested => absurd requested (settled full here)⟩
      intro requested
      simp only [stateAt, active, Table.find_erase, if_pos here, Option.bind_none] at requested
      cases requested
    · simp only [stateAt, active, Table.find_erase, here, if_false, false_and, not_false_eq_true,
        true_and]

theorem Verdict.requests {sha1 : Bytes → Bytes} {result : BlockResult} {next : PieceManager}
    (verdict : Verdict sha1 pieces block pp b result next) (r : BlockRequest) :
    next.isRequested r =
      (pieces.isRequested r && decide (r ≠ requestOf t block.pieceIndex b)) := by
  exact isRequested_remove valid.torrent (verdict.keeps_valid geometry valid fits).torrent
    block.pieceIndex b (verdict.state geometry valid fits) r

end Filing

section Requested

variable {t : TorrentFile} (geometry : Geometry t) {pieces : PieceManager} (valid : Valid t pieces)

include geometry valid

theorem requested_fits (block : Block)
    (requested : pieces.isRequested ⟨block.pieceIndex, block.offset, block.data.length⟩ = true) :
    ∃ pp, Fits pieces block pp (block.offset / kBlockSize) ∧
      block.data.length = (requestOf t block.pieceIndex (block.offset / kBlockSize)).length ∧
      pp.states[block.offset / kBlockSize]? = some .requested := by
  simp only [isRequested, decide_eq_true_eq] at requested
  obtain ⟨formed, state⟩ := requested
  obtain ⟨pp, found, located⟩ := Option.bind_eq_some_iff.mp state
  obtain ⟨counted, wanted, part⟩ := valid.parts block.pieceIndex pp found
  obtain ⟨bound, -⟩ := List.getElem?_eq_some_iff.mp located
  have offset := congrArg BlockRequest.offset formed
  have length := congrArg BlockRequest.length formed
  rw [valid.torrent] at length
  have low := geometry.pieceSize_positive block.pieceIndex (valid.inside _ counted)
  have slots := part.states
  refine ⟨pp, ⟨counted, wanted, found, offset, bound, ?_, ?_⟩, length, located⟩
  · have start : block.offset / kBlockSize * kBlockSize < pieceSize t block.pieceIndex := by
      rw [slots, blockCount] at bound
      rw [kBlockSize] at bound ⊢
      omega
    simp only [requestOf] at offset length
    rw [part.data]
    omega
  · rw [located]
    decide

theorem onBlock_files (sha1 : Bytes → Bytes) (block : Block)
    (requested : pieces.isRequested ⟨block.pieceIndex, block.offset, block.data.length⟩ = true) :
    ∃ pp, Fits pieces block pp (block.offset / kBlockSize) ∧
      onBlock sha1 pieces block = fileBlock sha1 pieces block (block.offset / kBlockSize) pp := by
  obtain ⟨pp, fits, -, -⟩ := requested_fits geometry valid block requested
  refine ⟨pp, fits, ?_⟩
  have aligned : ¬ block.offset % kBlockSize ≠ 0 := by
    rw [fits.offset, Nat.mul_mod_left]
    exact fun absurd_goal => absurd_goal rfl
  unfold onBlock
  dsimp only
  rw [if_neg (Nat.not_le_of_lt fits.counted), if_neg (by rw [fits.wanted]; decide), fits.found]
  dsimp only
  rw [if_neg aligned, if_neg (Nat.not_le_of_lt fits.bound), if_neg (Nat.not_lt_of_le fits.inside),
    if_neg fits.unreceived]

theorem onBlock_accepts (sha1 : Bytes → Bytes) (block : Block) (result : BlockResult)
    (next : PieceManager)
    (requested : pieces.isRequested ⟨block.pieceIndex, block.offset, block.data.length⟩ = true)
    (filed : onBlock sha1 pieces block = .ok (result, next)) :
    ∃ pp, Fits pieces block pp (block.offset / kBlockSize) ∧
      Verdict sha1 pieces block pp (block.offset / kBlockSize) result next := by
  obtain ⟨pp, fits, same⟩ := onBlock_files geometry valid sha1 block requested
  rw [same] at filed
  exact ⟨pp, fits, fileBlock_verdict sha1 result next filed⟩

theorem onBlock_returns (sha1 : Bytes → Bytes) (block : Block)
    (requested : pieces.isRequested ⟨block.pieceIndex, block.offset, block.data.length⟩ = true)
    (few : pieces.pieceCount + 7 < 2 ^ 32) :
    ∃ result next, onBlock sha1 pieces block = .ok (result, next) := by
  obtain ⟨pp, fits, same⟩ := onBlock_files geometry valid sha1 block requested
  rw [same]
  exact fileBlock_returns valid fits sha1 few

end Requested

section Releasing

variable {t : TorrentFile} {pieces : PieceManager} (valid : Valid t pieces)

theorem release_cons (req : BlockRequest) (reqs : List BlockRequest) :
    release pieces (req :: reqs) =
      release { pieces with active := pieces.active.modify req.pieceIndex (releaseState req) } reqs :=
  rfl

include valid

theorem releaseOne_valid (req : BlockRequest) :
    Valid t { pieces with active := pieces.active.modify req.pieceIndex (releaseState req) } := by
  refine ⟨valid.torrent, valid.pieceCount, valid.bits, valid.bytes, ?_, valid.haves⟩
  intro other pp found
  simp only [Table.find_modify] at found
  split at found
  · obtain ⟨old, located, changed⟩ := Option.map_eq_some_iff.mp found
    obtain ⟨counted, wanted, part⟩ := valid.parts other old located
    refine ⟨counted, wanted, ?_⟩
    unfold releaseState at changed
    dsimp only at changed
    split at changed
    · rename_i requested
      rw [← changed]
      exact unreceived_valid other _ old .requested .missing part requested (by decide) (by decide)
    · rw [← changed]
      exact part
  · exact valid.parts other pp found

theorem release_valid (reqs : List BlockRequest) : Valid t (release pieces reqs) := by
  induction reqs generalizing pieces with
  | nil => exact valid
  | cons req reqs ih =>
    rw [release_cons]
    exact ih (releaseOne_valid valid req)

omit valid in
theorem releaseOne_state (req : BlockRequest) (index place : Nat) :
    ({ pieces with active := pieces.active.modify req.pieceIndex (releaseState req) } :
        PieceManager).stateAt index place = some .requested ↔
      ¬ (index = req.pieceIndex ∧ place = req.offset / kBlockSize) ∧
        pieces.stateAt index place = some .requested := by
  simp only [stateAt, Table.find_modify]
  by_cases same : index = req.pieceIndex
  · rw [if_pos same]
    cases found : pieces.active.find? index with
    | none => simp
    | some pp =>
      simp only [Option.map_some, Option.bind_some, same, true_and, releaseState]
      by_cases here : place = req.offset / kBlockSize
      · subst here
        by_cases requested : pp.states[req.offset / kBlockSize]? = some .requested
        · obtain ⟨bound, -⟩ := List.getElem?_eq_some_iff.mp requested
          rw [if_pos requested, List.getElem?_set_self bound]
          simp
        · rw [if_neg requested]
          simp [requested]
      · split
        · rw [List.getElem?_set_ne (Ne.symm here)]
          simp [here]
        · simp [here]
  · rw [if_neg same]
    simp [same]

/-- Giving requests back takes exactly these out of the requested set. -/
theorem release_requests (reqs : List BlockRequest)
    (formed : ∀ req ∈ reqs, req = requestOf t req.pieceIndex (req.offset / kBlockSize))
    (r : BlockRequest) :
    (release pieces reqs).isRequested r = (pieces.isRequested r && decide (r ∉ reqs)) := by
  induction reqs generalizing pieces with
  | nil => simp [release]
  | cons req reqs ih =>
    have own := formed req (by simp)
    rw [release_cons, ih (releaseOne_valid valid req) (fun other member => formed other (by simp [member]))]
    have first : ({ pieces with active := pieces.active.modify req.pieceIndex (releaseState req) } :
        PieceManager).isRequested r = (pieces.isRequested r && decide (r ≠ req)) := by
      have removed := isRequested_remove valid.torrent (releaseOne_valid valid req).torrent
        req.pieceIndex (req.offset / kBlockSize) (releaseOne_state req) r
      rw [← own] at removed
      exact removed
    rw [first, Bool.and_assoc]
    congr 1
    rw [← Bool.coe_iff_coe]
    simp [List.mem_cons, not_or]

end Releasing

end TorrentPeer.PieceManager
