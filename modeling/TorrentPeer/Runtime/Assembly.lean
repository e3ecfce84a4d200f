import TorrentPeer.Runtime.PieceLedger

/-! The bytes of a piece in progress, block by block. -/

namespace TorrentPeer.PieceManager

open Splice Torrent

def gotIn (pp : PartialPiece) (b : Nat) : Option Bytes :=
  if pp.states[b]? = some .received then some (chunk kBlockSize pp.data b) else none

def got (pieces : PieceManager) (index b : Nat) : Option Bytes :=
  (pieces.active.find? index).bind (fun pp => gotIn pp b)

theorem got_found {pieces : PieceManager} {index : Nat} {pp : PartialPiece}
    (found : pieces.active.find? index = some pp) (b : Nat) : pieces.got index b = gotIn pp b := by
  rw [got, found]
  rfl

theorem gotIn_open (pp : PartialPiece) (slot b : Nat) (old new : BlockState)
    (located : pp.states[slot]? = some old) (was : old ≠ .received) (now : new ≠ .received) :
    gotIn { pp with states := pp.states.set slot new } b = gotIn pp b := by
  obtain ⟨bound, -⟩ := List.getElem?_eq_some_iff.mp located
  by_cases here : b = slot
  · subst here
    simp only [gotIn, List.getElem?_set_self bound, located, Option.some.injEq, was, now, if_false]
  · simp only [gotIn, List.getElem?_set_ne (Ne.symm here)]

theorem got_release (pieces : PieceManager) (reqs : List BlockRequest) (index b : Nat) :
    (release pieces reqs).got index b = pieces.got index b := by
  induction reqs generalizing pieces with
  | nil => rfl
  | cons req reqs ih =>
    rw [release_cons, ih, got, got, Table.find_modify]
    split
    · rename_i same
      cases found : pieces.active.find? index with
      | none => rfl
      | some pp =>
        simp only [Option.map_some, Option.bind_some, releaseState]
        split
        · rename_i requested
          exact gotIn_open pp _ b .requested .missing requested (by decide) (by decide)
        · rfl
    · rfl

theorem Picked.got {t : TorrentFile} {pieces opened next : PieceManager} {peerHas : Bitfield} {tag : Nat}
    {req : BlockRequest} {pp : PartialPiece} {slot : Nat}
    (picked : Picked t pieces opened next peerHas tag req pp slot) (index b : Nat) :
    next.got index b = pieces.got index b := by
  have asked : next.got index b = opened.got index b := by
    rw [picked.stored, PieceManager.got, PieceManager.got, Table.find_modify]
    split
    · rename_i same
      rw [same, picked.found]
      exact gotIn_open pp slot b .missing .requested picked.missing (by decide) (by decide)
    · rfl
  rw [asked]
  rcases picked.opening with same | ⟨same, absent⟩
  · rw [same]
  · rw [same, PieceManager.got, PieceManager.got, activate, Table.find_emplace _ _ _ _ absent]
    by_cases here : index = req.pieceIndex
    · have empty : gotIn (freshPiece pieces.torrent req.pieceIndex) b = none := by
        rw [gotIn, if_neg]
        intro received
        exact absurd (freshPiece_missing _ _ _ (List.mem_of_getElem? received)) (by decide)
      rw [if_pos here, here, absent, Option.bind_some, empty, Option.bind_none]
    · rw [if_neg here]

section Filing

variable {t : TorrentFile} {pieces : PieceManager} (valid : Valid t pieces) {block : Block}
  {pp : PartialPiece} {b : Nat} (fits : Fits pieces block pp b)
  (whole : block.data.length = (requestOf t block.pieceIndex b).length)

include valid fits whole

theorem filedPiece_got (other : Nat) :
    gotIn (filedPiece pp block b) other = if other = b then some block.data else gotIn pp other := by
  have size := (valid.parts block.pieceIndex pp fits.found).2.2.data
  have inside := fits.inside
  have parts := chunk_splice kBlockSize pp.data b block.data other (by rw [← fits.offset]; exact inside)
    (by rw [size]; exact whole)
  simp only [gotIn, filedPiece, fits.offset, parts]
  by_cases here : other = b
  · simp [here, fits.bound]
  · simp only [if_neg here, List.getElem?_set_ne (Ne.symm here)]

theorem filedPiece_chunk (geometry : Geometry t)
    (full : ¬ (filedPiece pp block b).received < (filedPiece pp block b).states.length) (other : Nat)
    (slot : other < blockCount t block.pieceIndex) :
    (if other = b then some block.data else pieces.got block.pieceIndex other) =
      some (chunk kBlockSize (filedPiece pp block b).data other) := by
  obtain ⟨-, -, slots, -⟩ := filedPiece_facts geometry valid fits
  have bound : other < (filedPiece pp block b).states.length := by rw [slots]; exact slot
  have received : (filedPiece pp block b).states[other]? = some .received := by
    rw [List.getElem?_eq_getElem bound,
      filedPiece_full geometry valid fits full _ (List.getElem_mem bound)]
  rw [got_found fits.found, ← filedPiece_got valid fits whole other, gotIn, if_pos received]

theorem Verdict.got {sha1 : Bytes → Bytes} {result : BlockResult} {next : PieceManager}
    (verdict : Verdict sha1 pieces block pp b result next) (index other : Nat) :
    next.got index other =
      if index = block.pieceIndex then
        if result.status = .incomplete then
          if other = b then some block.data else pieces.got index other
        else none
      else pieces.got index other := by
  by_cases here : index = block.pieceIndex
  · subst here
    rw [if_pos rfl, got_found fits.found]
    cases verdict with
    | incomplete short =>
      rw [if_pos rfl, ← filedPiece_got valid fits whole other, PieceManager.got, Table.find_modify,
        if_pos rfl, fits.found]
      rfl
    | failed full wrong =>
      have empty : gotIn (resetPiece (filedPiece pp block b)) other = none := by
        rw [gotIn, if_neg]
        intro received
        obtain ⟨_, _, missing⟩ := List.mem_map.mp (List.mem_of_getElem? received)
        cases missing
      rw [PieceManager.got, Table.find_modify, if_pos rfl, fits.found, Option.map_some, Option.bind_some,
        empty]
      rfl
    | verified _ full right stored =>
      have active := (markHave_valid (erase_valid valid block.pieceIndex) block.pieceIndex fits.counted
        fits.wanted (by simp) stored).2.1
      rw [PieceManager.got, active, Table.find_erase, if_pos rfl]
      rfl
  · rw [if_neg here]
    cases verdict with
    | incomplete short => rw [PieceManager.got, Table.find_modify, if_neg here, PieceManager.got]
    | failed full wrong => rw [PieceManager.got, Table.find_modify, if_neg here, PieceManager.got]
    | verified _ full right stored =>
      have active := (markHave_valid (erase_valid valid block.pieceIndex) block.pieceIndex fits.counted
        fits.wanted (by simp) stored).2.1
      rw [PieceManager.got, active, Table.find_erase, if_neg here, PieceManager.got]

end Filing

end TorrentPeer.PieceManager
