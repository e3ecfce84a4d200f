import TorrentPeer.Runtime.Pieces
import TorrentPeer.Metainfo.Geometry

/-! What every operation of `PieceManager` does to the block states. -/

namespace TorrentPeer.PieceManager

open Splice Torrent

def blockCount (t : TorrentFile) (index : Nat) : Nat :=
  (pieceSize t index + kBlockSize - 1) / kBlockSize

def requestOf (t : TorrentFile) (index b : Nat) : BlockRequest :=
  ⟨index, b * kBlockSize, min kBlockSize (pieceSize t index - b * kBlockSize)⟩

def stateAt (pieces : PieceManager) (index b : Nat) : Option BlockState :=
  (pieces.active.find? index).bind (fun pp => pp.states[b]?)

def isRequested (pieces : PieceManager) (r : BlockRequest) : Bool :=
  decide (r = requestOf pieces.torrent r.pieceIndex (r.offset / kBlockSize) ∧
    pieces.stateAt r.pieceIndex (r.offset / kBlockSize) = some .requested)

structure PartialValid (t : TorrentFile) (index : Nat) (pp : PartialPiece) : Prop where
  data : pp.data.length = pieceSize t index
  states : pp.states.length = blockCount t index
  received : pp.received = pp.states.count .received
  unfinished : pp.received < pp.states.length

structure Valid (t : TorrentFile) (pieces : PieceManager) : Prop where
  torrent : pieces.torrent = t
  pieceCount : pieces.pieceCount = t.pieces.length % 2 ^ 32
  bits : pieces.have_.bits = pieces.pieceCount
  bytes : pieces.have_.bytes.length = Bitfield.byteCount pieces.pieceCount
  parts : ∀ index pp, pieces.active.find? index = some pp →
    index < pieces.pieceCount ∧ pieces.have_.get index = false ∧ PartialValid t index pp
  haves : pieces.haveCount = (List.range pieces.pieceCount).countP pieces.have_.get

theorem create_valid (t : TorrentFile) : Valid t (create t) := by
  refine ⟨rfl, rfl, rfl, List.length_replicate, ?_, ?_⟩
  · intro index pp found
    cases found
  · have none_set : ∀ count : Nat, (List.range count).countP
        (Bitfield.ofBits (t.pieces.length % 2 ^ 32)).get = 0 := by
      intro count
      rw [List.countP_eq_zero]
      simp
    exact (none_set _).symm

theorem verify_congr (sha1 : Bytes → Bytes) {first second : PieceManager}
    (same : first.torrent = second.torrent) (index : Nat) (data : Bytes) :
    verify sha1 first index data = verify sha1 second index data := by
  rw [verify, verify, same]

section Blocks

variable {t : TorrentFile} (geometry : Geometry t) (index : Nat) (inside : index < t.pieces.length)

include geometry inside

theorem blockCount_bound : 0 < blockCount t index ∧ blockCount t index ≤ 2 ^ 12 := by
  have low := geometry.pieceSize_positive index inside
  have high := geometry.pieceSize_le index inside
  have cap := geometry.pieceLength_cap
  rw [blockCount, kBlockSize]
  omega

theorem freshPiece_valid : PartialValid t index (freshPiece t index) := by
  have low := geometry.pieceSize_positive index inside
  have high := geometry.pieceSize_le index inside
  have cap := geometry.pieceLength_cap
  have count : subU64 (addU64 (pieceSize t index) kBlockSize) 1 / kBlockSize = blockCount t index := by
    rw [addU64, Nat.mod_eq_of_lt (by rw [kBlockSize]; omega), subU64_le _ _ (by omega)
      (by rw [kBlockSize]; omega), blockCount]
  have bound := blockCount_bound geometry index inside
  refine ⟨?_, ?_, ?_, ?_⟩
  · simp [freshPiece]
  · simp [freshPiece, count]
  · simp [freshPiece, List.count_replicate]
  · simp only [freshPiece, List.length_replicate, count]
    exact bound.1

omit geometry inside in
theorem slot_inside {b : Nat} (low : b < blockCount t index) : b * kBlockSize < pieceSize t index := by
  rw [blockCount, kBlockSize] at low
  rw [kBlockSize]
  omega

theorem request_exact (b : Nat) (low : b < blockCount t index) :
    (⟨index, b * kBlockSize % 2 ^ 32,
      min kBlockSize (subU64 (pieceSize t index) (b * kBlockSize % 2 ^ 32)) % 2 ^ 32⟩ : BlockRequest) =
      requestOf t index b := by
  have high := geometry.pieceSize_le index inside
  have cap := geometry.pieceLength_cap
  have start := slot_inside index low
  have offset : b * kBlockSize % 2 ^ 32 = b * kBlockSize := Nat.mod_eq_of_lt (by omega)
  rw [offset, subU64_le _ _ (by omega) (by omega), requestOf,
    Nat.mod_eq_of_lt (by rw [kBlockSize]; omega)]

theorem nextMissing_some (pp next : PartialPiece) (req : BlockRequest)
    (valid : PartialValid t index pp) (found : nextMissing t index pp = some (req, next)) :
    ∃ b, pp.states[b]? = some .missing ∧ req = requestOf t index b ∧
      next = { pp with states := pp.states.set b .requested } := by
  unfold nextMissing at found
  split at found
  · cases found
  · rename_i b located
    obtain ⟨bound, missing, -⟩ := List.findIdx?_eq_some_iff_getElem.mp located
    rw [decide_eq_true_eq] at missing
    cases found
    refine ⟨b, ?_, ?_, rfl⟩
    · rw [List.getElem?_eq_getElem bound, missing]
    · exact request_exact geometry index inside b (valid.states ▸ bound)

omit geometry inside in
theorem nextMissing_none (pp : PartialPiece) (absent : nextMissing t index pp = none) :
    ∀ b : Nat, pp.states[b]? ≠ some .missing := by
  unfold nextMissing at absent
  split at absent
  · rename_i located
    intro b missing
    have all := List.findIdx?_eq_none_iff.mp located .missing (List.mem_of_getElem? missing)
    simp at all
  · cases absent

end Blocks

section States

variable (pieces : PieceManager) (index : Nat) (pp : PartialPiece)

theorem stateAt_found (found : pieces.active.find? index = some pp) (b : Nat) :
    pieces.stateAt index b = pp.states[b]? := by
  rw [stateAt, found]
  rfl

theorem stateAt_modify (next : PartialPiece) (b : Nat) (state : BlockState)
    (found : pieces.active.find? index = some pp) (bound : b < pp.states.length)
    (changed : next.states = pp.states.set b state) (other place : Nat) :
    ({ pieces with active := pieces.active.modify index (fun _ => next) } : PieceManager).stateAt
        other place =
      if other = index ∧ place = b then some state else pieces.stateAt other place := by
  simp only [stateAt, Table.find_modify]
  by_cases same : other = index
  · subst same
    rw [if_pos rfl, found]
    simp only [Option.map_some, Option.bind_some, changed, true_and]
    by_cases here : place = b
    · subst here
      rw [if_pos rfl, List.getElem?_set_self bound]
    · rw [if_neg here, List.getElem?_set_ne (Ne.symm here)]
  · rw [if_neg same, if_neg (fun both => same both.1)]

theorem isRequested_requestOf (b : Nat) :
    pieces.isRequested (requestOf pieces.torrent index b) =
      decide (pieces.stateAt index b = some .requested) := by
  have block : b * kBlockSize / kBlockSize = b := Nat.mul_div_cancel b (by decide)
  simp only [isRequested, requestOf, block, true_and]

theorem isRequested_congr (next : PieceManager) (torrent : next.torrent = pieces.torrent)
    (r : BlockRequest)
    (same : next.stateAt r.pieceIndex (r.offset / kBlockSize) = some .requested ↔
      pieces.stateAt r.pieceIndex (r.offset / kBlockSize) = some .requested) :
    next.isRequested r = pieces.isRequested r := by
  simp only [isRequested, torrent, same]

end States

section Picking

variable (pieces : PieceManager) (peerHas : Bitfield) (availability : List Nat) (tag : Nat)

theorem pickActive_some (keys : List Nat) (req : BlockRequest) (next : PartialPiece)
    (picked : pickActive pieces peerHas tag keys = some (req, next)) :
    ∃ index pp, pieces.active.find? index = some pp ∧ peerHas.get index = true ∧
      (∀ owner ∈ pp.owner, owner = tag) ∧ nextMissing pieces.torrent index pp = some (req, next) := by
  induction keys with
  | nil => cases picked
  | cons index rest ih =>
    unfold pickActive at picked
    split at picked
    · exact ih picked
    rename_i pp found
    split at picked
    · exact ih picked
    rename_i held
    split at picked
    · exact ih picked
    rename_i unowned
    split at picked
    · rename_i result taken
      cases picked
      refine ⟨index, pp, found, by simpa using held, ?_, taken⟩
      intro owner owned
      by_contra other
      exact unowned ⟨owner, owned, other⟩
    · exact ih picked

def Eligible (i : Nat) : Prop :=
  pieces.have_.get i = false ∧ pieces.active.find? i = none ∧ peerHas.get i = true

theorem scanPiece_skip (state : Nat × List Nat) (i : Nat) (unfit : ¬ Eligible pieces peerHas i) :
    scanPiece pieces peerHas availability state i = state := by
  have skipped : pieces.have_.get i = true ∨ pieces.active.contains i = true ∨ peerHas.get i = false := by
    by_contra wanted
    simp only [not_or, Bool.not_eq_true, Table.contains, Option.isSome_eq_false_iff,
      Option.isNone_iff_eq_none, Bool.not_eq_false] at wanted
    exact unfit wanted
  rw [scanPiece, if_pos skipped]

theorem scanPiece_take (best : Nat) (collected : List Nat) (i : Nat) (fit : Eligible pieces peerHas i) :
    scanPiece pieces peerHas availability (best, collected) i =
      if availability.getD i 0 < best then (availability.getD i 0, [i])
      else if availability.getD i 0 = best then (best, collected ++ [i]) else (best, collected) := by
  have wanted : ¬ (pieces.have_.get i = true ∨ pieces.active.contains i = true ∨ peerHas.get i = false) := by
    simp only [not_or, Bool.not_eq_true, Table.contains, Option.isSome_eq_false_iff,
      Option.isNone_iff_eq_none, Bool.not_eq_false]
    exact fit
  rw [scanPiece, if_neg wanted]
  by_cases better : availability.getD i 0 < best
  · simp only [if_pos better, if_true, List.nil_append]
  · simp only [if_neg better]

/-- What the scan knows after some pieces: the smallest count among the eligible ones, and exactly
those that have it. -/
structure Scanned (order : List Nat) (state : Nat × List Nat) : Prop where
  rarest : ∀ i ∈ order, Eligible pieces peerHas i → state.1 ≤ availability.getD i 0
  listed : ∀ i, i ∈ state.2 ↔ i ∈ order ∧ Eligible pieces peerHas i ∧ availability.getD i 0 = state.1
  reached : state.1 = 65535 ∨ state.2 ≠ []

variable {pieces peerHas availability}

theorem Scanned.skip {order : List Nat} {state : Nat × List Nat}
    (scanned : Scanned pieces peerHas availability order state) (i : Nat)
    (ignored : Eligible pieces peerHas i → state.1 < availability.getD i 0) :
    Scanned pieces peerHas availability (order ++ [i]) state := by
  refine ⟨?_, ?_, scanned.reached⟩
  · intro j member fit
    rcases List.mem_append.mp member with before | here
    · exact scanned.rarest j before fit
    · cases List.mem_singleton.mp here
      exact Nat.le_of_lt (ignored fit)
  · intro j
    rw [scanned.listed j]
    constructor
    · exact fun ⟨before, rest⟩ => ⟨List.mem_append_left _ before, rest⟩
    · rintro ⟨member, fit, least⟩
      rcases List.mem_append.mp member with before | here
      · exact ⟨before, fit, least⟩
      · cases List.mem_singleton.mp here
        have above := ignored fit
        omega

theorem Scanned.step {order : List Nat} {state : Nat × List Nat}
    (scanned : Scanned pieces peerHas availability order state) (i : Nat) :
    Scanned pieces peerHas availability (order ++ [i]) (scanPiece pieces peerHas availability state i) := by
  obtain ⟨best, collected⟩ := state
  by_cases fit : Eligible pieces peerHas i
  · rw [scanPiece_take _ _ _ _ _ _ fit]
    rcases Nat.lt_trichotomy (availability.getD i 0) best with better | tie | worse
    · rw [if_pos better]
      -- whatever was listed before is more common than this one
      refine ⟨?_, ?_, .inr (List.cons_ne_nil _ _)⟩
      · intro j member other
        rcases List.mem_append.mp member with before | here
        · exact Nat.le_trans (Nat.le_of_lt better) (scanned.rarest j before other)
        · cases List.mem_singleton.mp here
          exact Nat.le_refl _
      · intro j
        constructor
        · intro here
          cases List.mem_singleton.mp here
          exact ⟨List.mem_append_right _ here, fit, rfl⟩
        · rintro ⟨member, other, same⟩
          rcases List.mem_append.mp member with before | here
          · have above := scanned.rarest j before other
            dsimp only at same above
            omega
          · exact here
    · rw [if_neg (by omega), if_pos tie]
      refine ⟨?_, ?_, .inr (by simp)⟩
      · intro j member other
        rcases List.mem_append.mp member with before | here
        · exact scanned.rarest j before other
        · cases List.mem_singleton.mp here
          exact Nat.le_of_eq tie.symm
      · intro j
        rw [List.mem_append, List.mem_append, scanned.listed j]
        constructor
        · rintro (⟨before, rest⟩ | here)
          · exact ⟨.inl before, rest⟩
          · cases List.mem_singleton.mp here
            exact ⟨.inr here, fit, tie⟩
        · rintro ⟨before | here, rest⟩
          · exact .inl ⟨before, rest⟩
          · exact .inr here
    · rw [if_neg (by omega), if_neg (by omega)]
      exact scanned.skip i (fun _ => worse)
  · rw [scanPiece_skip _ _ _ _ _ fit]
    exact scanned.skip i (fun eligible => absurd eligible fit)

variable (pieces peerHas availability)

theorem candidates_scanned :
    ∃ best, Scanned pieces peerHas availability (List.range pieces.pieceCount)
      (best, candidates pieces peerHas availability) := by
  have all : ∀ order : List Nat, Scanned pieces peerHas availability order
      (order.foldl (scanPiece pieces peerHas availability) (65535, [])) := by
    intro order
    induction order using List.reverseRecOn with
    | nil => exact ⟨nofun, by simp, .inl rfl⟩
    | append_singleton before i ih =>
      rw [List.foldl_append]
      exact ih.step i
  exact ⟨_, all (List.range pieces.pieceCount)⟩

theorem candidates_eligible (listed : Nat) (member : listed ∈ candidates pieces peerHas availability) :
    listed < pieces.pieceCount ∧ Eligible pieces peerHas listed := by
  obtain ⟨best, scanned⟩ := candidates_scanned pieces peerHas availability
  obtain ⟨inside, fit, -⟩ := (scanned.listed listed).mp member
  exact ⟨List.mem_range.mp inside, fit⟩

theorem draw_eligible (draw : Nat) (nonempty : candidates pieces peerHas availability ≠ []) :
    (candidates pieces peerHas availability).getD
        (draw % (candidates pieces peerHas availability).length) 0 < pieces.pieceCount ∧
      Eligible pieces peerHas ((candidates pieces peerHas availability).getD
        (draw % (candidates pieces peerHas availability).length) 0) := by
  have bound : draw % (candidates pieces peerHas availability).length <
      (candidates pieces peerHas availability).length :=
    Nat.mod_lt _ (List.length_pos_iff.mpr nonempty)
  apply candidates_eligible pieces peerHas availability
  rw [List.getD_eq_getElem?_getD, List.getElem?_eq_getElem bound, Option.getD_some]
  exact List.getElem_mem bound

end Picking

section Operations

variable {t : TorrentFile} (geometry : Geometry t) {pieces : PieceManager} (valid : Valid t pieces)

include valid

theorem Valid.inside (index : Nat) (counted : index < pieces.pieceCount) : index < t.pieces.length := by
  rw [valid.pieceCount] at counted
  exact Nat.lt_of_lt_of_le counted (Nat.mod_le _ _)

include geometry

theorem activate_valid (index : Nat) (counted : index < pieces.pieceCount)
    (wanted : pieces.have_.get index = false) (absent : pieces.active.find? index = none) :
    Valid t (activate pieces index) := by
  refine ⟨valid.torrent, valid.pieceCount, valid.bits, valid.bytes, ?_, valid.haves⟩
  intro other pp found
  simp only [activate, Table.find_emplace _ _ _ _ absent] at found
  split at found
  · rename_i same
    subst same
    cases found
    rw [valid.torrent]
    exact ⟨counted, wanted, freshPiece_valid geometry other (valid.inside other counted)⟩
  · exact valid.parts other pp found

/-- What a successful pick did: it opened the piece if it was not active, and turned one
missing block of it into a requested one. -/
structure Picked (t : TorrentFile) (pieces opened next : PieceManager) (peerHas : Bitfield)
    (tag : Nat) (req : BlockRequest) (pp : PartialPiece) (b : Nat) : Prop where
  opening : opened = pieces ∨ opened = activate pieces req.pieceIndex ∧
    pieces.active.find? req.pieceIndex = none
  valid : Valid t opened
  found : opened.active.find? req.pieceIndex = some pp
  owner : ∀ owner ∈ pp.owner, owner = tag
  missing : pp.states[b]? = some .missing
  request : req = requestOf t req.pieceIndex b
  counted : req.pieceIndex < pieces.pieceCount
  wanted : pieces.have_.get req.pieceIndex = false
  held : peerHas.get req.pieceIndex = true
  stored : next =
    { opened with
      active := opened.active.modify req.pieceIndex
        (fun _ => { pp with states := pp.states.set b .requested }) }

theorem pickBlock_some (peerHas : Bitfield) (availability : List Nat) (tag : Nat) (choice : Choice)
    (req : BlockRequest) (next : PieceManager)
    (picked : pickBlock pieces peerHas availability tag choice = (some req, next)) :
    ∃ opened pp b, Picked t pieces opened next peerHas tag req pp b := by
  unfold pickBlock at picked
  split at picked
  · rename_i request after taken
    obtain ⟨index, pp, found, held, owner, missing⟩ := pickActive_some _ _ _ _ _ _ taken
    obtain ⟨counted, wanted, part⟩ := valid.parts index pp found
    rw [valid.torrent] at missing
    obtain ⟨b, state, request_eq, stored⟩ := nextMissing_some geometry index (valid.inside index counted)
      pp after request part missing
    cases picked
    have same : req.pieceIndex = index := by rw [request_eq]; rfl
    subst same
    exact ⟨pieces, pp, b, Or.inl rfl, valid, found, owner, state, request_eq, counted, wanted, held,
      by rw [stored]⟩
  · dsimp only at picked
    split at picked
    · cases picked
    rename_i nonempty
    obtain ⟨counted, wanted, absent, held⟩ :=
      draw_eligible pieces peerHas availability choice.draw nonempty
    generalize (candidates pieces peerHas availability).getD
      (choice.draw % (candidates pieces peerHas availability).length) 0 = index at *
    have opened := activate_valid geometry valid index counted wanted absent
    unfold takeMissing at picked
    split at picked
    · cases picked
    rename_i request after taken
    obtain ⟨pp, found, missing⟩ := Option.bind_eq_some_iff.mp taken
    have fresh : pp = freshPiece pieces.torrent index := by
      simp only [activate, Table.find_emplace _ _ _ _ absent, if_true] at found
      exact (Option.some.inj found).symm
    have unowned : ∀ owner ∈ pp.owner, owner = tag := by
      rw [fresh]
      intro owner owned
      cases owned
    obtain ⟨-, -, part⟩ := opened.parts index pp found
    rw [opened.torrent] at missing
    obtain ⟨b, state, request_eq, stored⟩ := nextMissing_some geometry index (valid.inside index counted)
      pp after request part missing
    cases picked
    have same : req.pieceIndex = index := by rw [request_eq]; rfl
    subst same
    exact ⟨activate pieces req.pieceIndex, pp, b, Or.inr ⟨rfl, absent⟩, opened, found, unowned, state,
      request_eq, counted, wanted, held, by rw [stored]⟩

theorem pickBlock_none (peerHas : Bitfield) (availability : List Nat) (tag : Nat) (choice : Choice)
    (next : PieceManager) (picked : pickBlock pieces peerHas availability tag choice = (none, next)) :
    next = pieces := by
  unfold pickBlock at picked
  split at picked
  · cases picked
  · dsimp only at picked
    split at picked
    · cases picked
      rfl
    rename_i nonempty
    obtain ⟨counted, wanted, absent, held⟩ :=
      draw_eligible pieces peerHas availability choice.draw nonempty
    generalize (candidates pieces peerHas availability).getD
      (choice.draw % (candidates pieces peerHas availability).length) 0 = index at *
    -- a fresh piece has a first block, and it is missing
    have found : (activate pieces index).active.find? index = some (freshPiece pieces.torrent index) := by
      simp only [activate, Table.find_emplace _ _ _ _ absent, if_true]
    unfold takeMissing at picked
    rw [found, Option.bind_some] at picked
    split at picked
    · rename_i absent_block
      have fresh := freshPiece_valid geometry index (valid.inside index counted)
      have positive := fresh.unfinished
      exfalso
      refine nextMissing_none index _ absent_block 0 ?_
      rw [valid.torrent]
      have first : (freshPiece t index).states[0]? = some .missing := by
        have long : 0 < (freshPiece t index).states.length := by omega
        simp only [freshPiece, List.length_replicate] at long ⊢
        rw [List.getElem?_replicate, if_pos long]
      exact first
    · cases picked

end Operations

end TorrentPeer.PieceManager
