import TorrentPeer.Metainfo.Torrent
import TorrentPeer.Core.Bitfield
import TorrentPeer.Lib.Table

/-! `PieceManager`: which blocks are missing, requested or received, and the verdict
on a full piece. SHA-1, the iteration order of `active_` and the random draw are
arguments. -/

namespace TorrentPeer

open Splice

inductive BlockStatus where
  | incomplete
  | rejected
  | pieceVerified
  | pieceFailed
  deriving DecidableEq, Repr

structure BlockResult where
  status : BlockStatus
  piece : CompletedPiece := ⟨0, []⟩
  deriving DecidableEq, Repr

inductive BlockState where
  | missing
  | requested
  | received
  deriving DecidableEq, Repr

structure PartialPiece where
  data : Bytes
  states : List BlockState
  received : Nat := 0
  owner : Option Nat := none
  deriving DecidableEq, Repr

structure PieceManager where
  torrent : TorrentFile
  pieceCount : Nat
  have_ : Bitfield
  haveBytes : Nat
  haveCount : Nat
  active : Table Nat PartialPiece

/-- What `pick_block` leaves open: the order of `active_` and the generator's next value. -/
structure Choice where
  order : List Nat
  draw : Nat

namespace PieceManager

open Torrent

def create (torrent : TorrentFile) : PieceManager where
  torrent := torrent
  pieceCount := torrent.pieces.length % 2 ^ 32
  have_ := Bitfield.ofBits (torrent.pieces.length % 2 ^ 32)
  haveBytes := 0
  haveCount := 0
  active := Table.empty

def verify (sha1 : Bytes → Bytes) (pieces : PieceManager) (index : Nat) (data : Bytes) : Bool :=
  let expected := pieces.torrent.pieces.getD index []
  decide (expected.length = 20 ∧ sha1 data = expected)

def nextMissing (torrent : TorrentFile) (index : Nat) (pp : PartialPiece) :
    Option (BlockRequest × PartialPiece) :=
  match pp.states.findIdx? (fun state => decide (state = .missing)) with
  | none => none
  | some b =>
    let offset := b * kBlockSize % 2 ^ 32
    let length := min kBlockSize (subU64 (pieceSize torrent index) offset) % 2 ^ 32
    some (⟨index, offset, length⟩, { pp with states := pp.states.set b .requested })

/-- The loop over `active_`. -/
def pickActive (pieces : PieceManager) (peerHas : Bitfield) (tag : Nat) :
    List Nat → Option (BlockRequest × PartialPiece)
  | [] => none
  | index :: rest =>
    match pieces.active.find? index with
    | none => pickActive pieces peerHas tag rest
    | some pp =>
      if peerHas.get index = false then pickActive pieces peerHas tag rest
      else if ∃ owner ∈ pp.owner, owner ≠ tag then pickActive pieces peerHas tag rest
      else
        match nextMissing pieces.torrent index pp with
        | some found => some found
        | none => pickActive pieces peerHas tag rest

def scanPiece (pieces : PieceManager) (peerHas : Bitfield) (availability : List Nat) :
    Nat × List Nat → Nat → Nat × List Nat
  | (best, candidates), i =>
    if pieces.have_.get i = true ∨ pieces.active.contains i = true ∨ peerHas.get i = false then
      (best, candidates)
    else
      let avail := availability.getD i 0
      let (best, candidates) := if avail < best then (avail, []) else (best, candidates)
      if avail = best then (best, candidates ++ [i]) else (best, candidates)

def candidates (pieces : PieceManager) (peerHas : Bitfield) (availability : List Nat) : List Nat :=
  ((List.range pieces.pieceCount).foldl (scanPiece pieces peerHas availability) (65535, [])).2

def freshPiece (torrent : TorrentFile) (index : Nat) : PartialPiece :=
  let len := pieceSize torrent index
  { data := List.replicate len 0
    states := List.replicate (subU64 (addU64 len kBlockSize) 1 / kBlockSize) .missing }

def activate (pieces : PieceManager) (index : Nat) : PieceManager :=
  { pieces with active := pieces.active.emplace index (freshPiece pieces.torrent index) }

/-- `next_missing` on a piece that is in `active_`, stored back. -/
def takeMissing (pieces : PieceManager) (index : Nat) : Option BlockRequest × PieceManager :=
  match (pieces.active.find? index).bind (nextMissing pieces.torrent index) with
  | none => (none, pieces)
  | some (req, pp) => (some req, { pieces with active := pieces.active.modify index (fun _ => pp) })

def pickBlock (pieces : PieceManager) (peerHas : Bitfield) (availability : List Nat) (tag : Nat)
    (choice : Choice) : Option BlockRequest × PieceManager :=
  match pickActive pieces peerHas tag (pieces.active.arrange choice.order) with
  | some (req, pp) =>
    (some req, { pieces with active := pieces.active.modify req.pieceIndex (fun _ => pp) })
  | none =>
    let listed := candidates pieces peerHas availability
    if listed = [] then (none, pieces)
    else
      let index := listed.getD (choice.draw % listed.length) 0
      takeMissing (activate pieces index) index

def markHave (pieces : PieceManager) (index : Nat) : Except Exn PieceManager := do
  let have_ ← pieces.have_.set index
  pure { pieces with
    have_ := have_
    haveCount := (pieces.haveCount + 1) % 2 ^ 32
    haveBytes := addU64 pieces.haveBytes (pieceSize pieces.torrent index) }

def recheck (sha1 : Bytes → Bytes) (pieces : PieceManager) (index : Nat) (data : Bytes) :
    Except Exn PieceManager :=
  if verify sha1 pieces index data = true then markHave pieces index else .ok pieces

def filedPiece (pp : PartialPiece) (block : Block) (b : Nat) : PartialPiece :=
  { pp with
    data := splice pp.data block.offset block.data
    received := (pp.received + 1) % 2 ^ 32
    states := pp.states.set b .received }

def resetPiece (pp : PartialPiece) : PartialPiece :=
  { pp with states := pp.states.map (fun _ => .missing), received := 0 }

/-- The part of `on_block` that follows the checks: file the block, then the verdict. -/
def fileBlock (sha1 : Bytes → Bytes) (pieces : PieceManager) (block : Block) (b : Nat)
    (pp : PartialPiece) : Except Exn (BlockResult × PieceManager) :=
  let index := block.pieceIndex
  let filed := filedPiece pp block b
  if filed.received < filed.states.length then
    .ok (⟨.incomplete, ⟨0, []⟩⟩, { pieces with active := pieces.active.modify index (fun _ => filed) })
  else if verify sha1 pieces index filed.data = false then
    .ok (⟨.pieceFailed, ⟨index, filed.data⟩⟩,
      { pieces with active := pieces.active.modify index (fun _ => resetPiece filed) })
  else do
    let marked ← markHave { pieces with active := pieces.active.erase index } index
    pure (⟨.pieceVerified, ⟨index, filed.data⟩⟩, marked)

def onBlock (sha1 : Bytes → Bytes) (pieces : PieceManager) (block : Block) :
    Except Exn (BlockResult × PieceManager) :=
  let rejected := .ok (⟨.rejected, ⟨0, []⟩⟩, pieces)
  if pieces.pieceCount ≤ block.pieceIndex then rejected
  else if pieces.have_.get block.pieceIndex = true then rejected
  else
    match pieces.active.find? block.pieceIndex with
    | none => rejected
    | some pp =>
      let b := block.offset / kBlockSize
      if block.offset % kBlockSize ≠ 0 then rejected
      else if pp.states.length ≤ b then rejected
      else if pp.data.length < block.offset + block.data.length then rejected
      else if pp.states[b]? = some .received then rejected
      else fileBlock sha1 pieces block b pp

def releaseState (req : BlockRequest) (pp : PartialPiece) : PartialPiece :=
  let b := req.offset / kBlockSize
  if pp.states[b]? = some .requested then { pp with states := pp.states.set b .missing } else pp

def release (pieces : PieceManager) (reqs : List BlockRequest) : PieceManager :=
  reqs.foldl (fun pieces req =>
    { pieces with active := pieces.active.modify req.pieceIndex (releaseState req) }) pieces

def setOwner (pieces : PieceManager) (index : Nat) (owner : Option Nat) : PieceManager :=
  { pieces with active := pieces.active.modify index (fun pp => { pp with owner := owner }) }

def isComplete (pieces : PieceManager) : Bool := decide (pieces.haveCount = pieces.pieceCount)

def havePiece (pieces : PieceManager) (index : Nat) : Bool := pieces.have_.get index

def bytesLeft (pieces : PieceManager) : Nat := subU64 pieces.torrent.totalLength pieces.haveBytes

end PieceManager

end TorrentPeer
