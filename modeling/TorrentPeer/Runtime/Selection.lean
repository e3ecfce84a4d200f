import TorrentPeer.Runtime.PieceCounters

/-! Which block `pick_block` takes: one of a piece in progress when there is any, else the first
of a rarest piece. -/

namespace TorrentPeer.PieceManager

open Splice Torrent Transition

def Resumable (pieces : PieceManager) (peerHas : Bitfield) (tag index b : Nat) : Prop :=
  ∃ pp, pieces.active.find? index = some pp ∧ peerHas.get index = true ∧
    (∀ owner ∈ pp.owner, owner = tag) ∧ pp.states[b]? = some .missing

def askedIn (b : Nat) (pp : PartialPiece) : PartialPiece :=
  { pp with states := pp.states.set b .requested }

/-- The three ways `pick_block` ends, each with all it changes. -/
inductive Selects (t : TorrentFile) (pieces : PieceManager) (peerHas : Bitfield) (availability : List Nat)
    (tag : Nat) : Option BlockRequest → PieceManager → Prop
  | resumed (index b : Nat) (open_ : Resumable pieces peerHas tag index b) :
      Selects t pieces peerHas availability tag (some (requestOf t index b))
        { pieces with active := pieces.active.modify index (askedIn b) }
  | opened (index least : Nat) (none_open : ∀ other b, ¬ Resumable pieces peerHas tag other b)
      (counted : index < pieces.pieceCount) (fit : Eligible pieces peerHas index)
      (count : availability[index]? = some least)
      (rarest : ∀ other common, other < pieces.pieceCount → Eligible pieces peerHas other →
        availability[other]? = some common → least ≤ common) :
      Selects t pieces peerHas availability tag (some (requestOf t index 0))
        { pieces with active := pieces.active.emplace index (askedIn 0 (freshPiece t index)) }
  | nothing (none_open : ∀ index b, ¬ Resumable pieces peerHas tag index b)
      (none_fit : ∀ index, index < pieces.pieceCount → ¬ Eligible pieces peerHas index) :
      Selects t pieces peerHas availability tag none pieces

section Phases

variable {pieces : PieceManager} {peerHas : Bitfield} {tag : Nat}

theorem pickActive_none {keys : List Nat} (picked : pickActive pieces peerHas tag keys = none) :
    ∀ index ∈ keys, ∀ b, ¬ Resumable pieces peerHas tag index b := by
  induction keys with
  | nil => exact nofun
  | cons first rest ih =>
    unfold pickActive at picked
    intro index member b
    rcases List.mem_cons.mp member with rfl | later
    · rintro ⟨pp, found, held, unowned, missing⟩
      have free : ¬ ∃ owner ∈ pp.owner, owner ≠ tag := by
        rintro ⟨owner, owned, other⟩
        exact other (unowned owner owned)
      simp only [found, held, Bool.true_eq_false, if_false, if_neg free] at picked
      cases taken : nextMissing pieces.torrent index pp with
      | none => exact nextMissing_none index pp taken b missing
      | some result =>
        rw [taken] at picked
        cases picked
    · refine ih ?_ index later b
      split at picked
      · exact picked
      split at picked
      · exact picked
      split at picked
      · exact picked
      split at picked
      · cases picked
      · exact picked

theorem candidates_rarest {availability : List Nat} {listed : Nat}
    (member : listed ∈ candidates pieces peerHas availability) (other : Nat)
    (counted : other < pieces.pieceCount) (fit : Eligible pieces peerHas other) :
    availability.getD listed 0 ≤ availability.getD other 0 := by
  obtain ⟨best, scanned⟩ := candidates_scanned pieces peerHas availability
  obtain ⟨-, -, least⟩ := (scanned.listed listed).mp member
  rw [least]
  exact scanned.rarest other (List.mem_range.mpr counted) fit

theorem candidates_complete {availability : List Nat} (narrow : ∀ count ∈ availability, count < 2 ^ 16)
    {index : Nat} (counted : index < pieces.pieceCount) (fit : Eligible pieces peerHas index) :
    candidates pieces peerHas availability ≠ [] := by
  obtain ⟨best, scanned⟩ := candidates_scanned pieces peerHas availability
  have inside := List.mem_range.mpr counted
  rcases scanned.reached with sentinel | nonempty
  · have small : availability.getD index 0 ≤ 65535 := by
      rw [List.getD_eq_getElem?_getD]
      cases present : availability[index]? with
      | none => exact Nat.zero_le _
      | some count => exact Nat.le_of_lt_succ (narrow count (List.mem_of_getElem? present))
    have least := scanned.rarest index inside fit
    dsimp only at sentinel least
    have listed := (scanned.listed index).mpr ⟨inside, fit, by dsimp only; omega⟩
    exact List.ne_nil_of_mem listed
  · exact nonempty

end Phases

section Choices

variable {t : TorrentFile} (geometry : Geometry t) {pieces : PieceManager} (valid : Valid t pieces)
  {peerHas : Bitfield} {tag : Nat}

include geometry valid

theorem resume_selects {availability keys : List Nat} {req : BlockRequest} {after : PartialPiece}
    (taken : pickActive pieces peerHas tag keys = some (req, after)) :
    Selects t pieces peerHas availability tag (some req)
      { pieces with active := pieces.active.modify req.pieceIndex (fun _ => after) } := by
  obtain ⟨index, pp, found, held, unowned, missing⟩ := pickActive_some _ _ _ _ _ _ taken
  obtain ⟨counted, -, part⟩ := valid.parts index pp found
  rw [valid.torrent] at missing
  obtain ⟨b, state, request, stored⟩ := nextMissing_some geometry index (valid.inside index counted)
    pp after req part missing
  subst request stored
  have same : pieces.active.modify index (fun _ => askedIn b pp) = pieces.active.modify index (askedIn b) := by
    apply Table.modify_congr
    intro value there
    rw [found] at there
    cases there
    rfl
  show Selects t pieces peerHas availability tag _
    { pieces with active := pieces.active.modify index (fun _ => askedIn b pp) }
  rw [same]
  exact .resumed index b ⟨pp, found, held, unowned, state⟩

omit valid in
theorem fresh_states {index : Nat} (inside : index < t.pieces.length) :
    (freshPiece t index).states = List.replicate (blockCount t index) .missing := by
  rw [← (freshPiece_valid geometry index inside).states]
  simp only [freshPiece, List.length_replicate]

omit valid in
theorem fresh_first {index : Nat} (inside : index < t.pieces.length) :
    (freshPiece t index).states.findIdx? (fun state => decide (state = .missing)) = some 0 := by
  have bound := (blockCount_bound geometry index inside).1
  rw [fresh_states geometry inside, ← Nat.succ_pred_eq_of_pos bound, List.replicate_succ, List.findIdx?_cons,
    if_pos (by decide)]

omit valid in
theorem nextMissing_at {index : Nat} (inside : index < t.pieces.length) {pp : PartialPiece} {b : Nat}
    (low : b < blockCount t index)
    (first : pp.states.findIdx? (fun state => decide (state = .missing)) = some b) :
    nextMissing t index pp = some (requestOf t index b, askedIn b pp) := by
  rw [← request_exact geometry index inside b low, nextMissing, first]
  rfl

theorem takeMissing_fresh {index : Nat} (counted : index < pieces.pieceCount)
    (absent : pieces.active.find? index = none) :
    takeMissing (activate pieces index) index = (some (requestOf t index 0),
      { pieces with active := pieces.active.emplace index (askedIn 0 (freshPiece t index)) }) := by
  have found : (activate pieces index).active.find? index = some (freshPiece t index) := by
    simp only [activate, Table.find_emplace _ _ _ _ absent, if_true, valid.torrent]
  have taken : nextMissing (activate pieces index).torrent index (freshPiece t index) =
      some (requestOf t index 0, askedIn 0 (freshPiece t index)) := by
    have same : (activate pieces index).torrent = t := valid.torrent
    rw [same]
    have inside := valid.inside index counted
    exact nextMissing_at geometry inside (blockCount_bound geometry index inside).1 (fresh_first geometry inside)
  have stored : (activate pieces index).active.modify index (fun _ => askedIn 0 (freshPiece t index)) =
      pieces.active.emplace index (askedIn 0 (freshPiece t index)) :=
    Table.emplace_modify _ _ _ _ absent
  rw [takeMissing, found, Option.bind_some, taken]
  dsimp only
  rw [stored]
  rfl

theorem open_selects {availability : List Nat} {index : Nat} (sized : availability.length = pieces.pieceCount)
    (none_open : ∀ other b, ¬ Resumable pieces peerHas tag other b)
    (listed : index ∈ candidates pieces peerHas availability) :
    Selects t pieces peerHas availability tag (takeMissing (activate pieces index) index).1
      (takeMissing (activate pieces index) index).2 := by
  obtain ⟨counted, fit⟩ := candidates_eligible _ _ _ index listed
  rw [takeMissing_fresh geometry valid counted fit.2.1]
  have here : availability[index]? = some (availability.getD index 0) := by
    rw [List.getD_eq_getElem?_getD, List.getElem?_eq_getElem (sized ▸ counted)]
    rfl
  refine .opened index (availability.getD index 0) none_open counted fit here ?_
  intro other common inside eligible present
  have least := candidates_rarest listed other inside eligible
  have same : availability.getD other 0 = common := by
    rw [List.getD_eq_getElem?_getD, present]
    rfl
  rwa [same] at least

theorem pickBlock_selects (availability : List Nat) (choice : Choice)
    (sized : availability.length = pieces.pieceCount) (narrow : ∀ count ∈ availability, count < 2 ^ 16) :
    Selects t pieces peerHas availability tag (pickBlock pieces peerHas availability tag choice).1
      (pickBlock pieces peerHas availability tag choice).2 := by
  unfold pickBlock
  split
  · rename_i req after taken
    exact resume_selects geometry valid taken
  · rename_i idle
    have none_open : ∀ other b, ¬ Resumable pieces peerHas tag other b := by
      intro other b open_
      obtain ⟨pp, found, -⟩ := id open_
      exact pickActive_none idle other ((Table.arrange_member _ _ _).mpr ⟨pp, found⟩) b open_
    dsimp only
    split
    · rename_i empty
      refine .nothing none_open ?_
      intro index counted fit
      exact candidates_complete narrow counted fit empty
    · rename_i nonempty
      apply open_selects geometry valid sized none_open
      have bound : choice.draw % (candidates pieces peerHas availability).length <
          (candidates pieces peerHas availability).length :=
        Nat.mod_lt _ (List.length_pos_iff.mpr nonempty)
      rw [List.getD_eq_getElem?_getD, List.getElem?_eq_getElem bound, Option.getD_some]
      exact List.getElem_mem bound

end Choices

/-- In every state of the manager of an accepted torrent, `pick_block` finds a block exactly when
the peer has a wanted piece that is not in progress, or one in progress with a missing block that
is not reserved for another peer. Pieces in progress come first, then the rarest of the others.
The pieces are those that `piece_count_` counts, the torrent's modulo 2³², and `availability` has a
counter for each of them. -/
theorem pick_block_rarest_first (sha1 : Bytes → Bytes) (data : Bytes) (t : TorrentFile)
    (accepted : parseTorrent sha1 data = .ok t) (p : Progress) (called : Called sha1 t p)
    (peerHas : Bitfield) (availability : List Nat) (tag : Nat) (choice : Choice)
    (sized : availability.length = p.pieces.pieceCount) (narrow : ∀ count ∈ availability, count < 2 ^ 16) :
    let picked := p.pieces.pickBlock peerHas availability tag choice
    (picked.1 ≠ none ↔ ∃ index < p.pieces.pieceCount, peerHas.get index = true ∧
      p.pieces.have_.get index = false ∧
      (p.pieces.active.find? index = none ∨ ∃ b, Resumable p.pieces peerHas tag index b)) ∧
    Selects t p.pieces peerHas availability tag picked.1 picked.2 := by
  intro picked
  have geometry := accepted_geometry sha1 data t accepted
  have valid := (called_tidy geometry called).counted.valid
  have selects : Selects t p.pieces peerHas availability tag picked.1 picked.2 :=
    pickBlock_selects geometry valid availability choice sized narrow
  refine ⟨?_, selects⟩
  generalize picked.1 = answer, picked.2 = next at selects
  cases selects with
  | resumed index b open_ =>
    obtain ⟨pp, found, held, -⟩ := id open_
    obtain ⟨counted, wanted, -⟩ := valid.parts index pp found
    exact iff_of_true (by simp) ⟨index, counted, held, wanted, .inr ⟨b, open_⟩⟩
  | opened index least none_open counted fit count rarest =>
    obtain ⟨wanted, absent, held⟩ := fit
    exact iff_of_true (by simp) ⟨index, counted, held, wanted, .inl absent⟩
  | nothing none_open none_fit =>
    apply iff_of_false (by simp)
    rintro ⟨index, counted, held, wanted, absent | ⟨b, open_⟩⟩
    · exact none_fit index counted ⟨wanted, absent, held⟩
    · exact none_open index b open_

/-- The first piece is held and the second in progress, with its only block asked for: of the other
two the rarer one is opened. -/
theorem pick_block_rarest_first_of_two :
    ∃ p, Called Session.spotDigest Session.fourPieces p ∧ p.pieces.have_.get 0 = true ∧
      p.pieces.stateAt 1 0 = some .requested ∧
      Selects Session.fourPieces p.pieces ⟨4, [240]⟩ [4, 1, 3, 2] 8 (some ⟨3, 0, 1⟩)
        (p.pieces.pickBlock ⟨4, [240]⟩ [4, 1, 3, 2] 8 ⟨[1], 5⟩).2 := by
  have seen : (Transition.run (call Session.spotDigest) { pieces := create Session.fourPieces }
      [.recheck 0 [1], .pickBlock ⟨4, [64]⟩ [4, 1, 3, 2] 7 ⟨[], 0⟩]).map (fun p =>
        (p.pieces.have_.get 0, p.pieces.stateAt 1 0, p.pieces.pieceCount,
          (p.pieces.pickBlock ⟨4, [240]⟩ [4, 1, 3, 2] 8 ⟨[1], 5⟩).1)) =
      some (true, some .requested, 4, some ⟨3, 0, 1⟩) := by
    decide +kernel
  obtain ⟨p, ran, shown⟩ := Option.map_eq_some_iff.mp seen
  simp only [Prod.mk.injEq] at shown
  obtain ⟨held, asked, count, picked⟩ := shown
  have begins : Called Session.spotDigest Session.fourPieces { pieces := create Session.fourPieces } :=
    Reachable.start _ rfl
  have called : Called Session.spotDigest Session.fourPieces p := begins.run ran
  have spec := (pick_block_rarest_first Session.spotDigest Session.fourInfo Session.fourPieces
    Session.fourPieces_accepted p called ⟨4, [240]⟩ [4, 1, 3, 2] 8 ⟨[1], 5⟩ count.symm (by decide)).2
  rw [picked] at spec
  exact ⟨p, called, held, asked, spec⟩

end TorrentPeer.PieceManager
