import TorrentPeer.Runtime.Selection
import TorrentPeer.Runtime.Assembly
import Mathlib.Data.List.Perm.Basic

/-! What a verdict on a piece is about: the blocks accepted since the piece was activated or last
failed, one per slot, put together in the order of the slots. -/

namespace TorrentPeer.PieceManager

open Splice Torrent Transition

/-- What `next_missing` issues for a piece, called as often as said. -/
def issue (t : TorrentFile) (index : Nat) : Nat → PartialPiece → List BlockRequest
  | 0, _ => []
  | calls + 1, pp =>
    match nextMissing t index pp with
    | none => []
    | some (req, after) => req :: issue t index calls after

def Tiles : Nat → List BlockRequest → Nat → Prop
  | start, [], stop => start = stop
  | start, req :: rest, stop =>
    req.offset = start ∧ 1 ≤ req.length ∧ req.length ≤ kBlockSize ∧ Tiles (start + req.length) rest stop

section Requests

variable {t : TorrentFile} (geometry : Geometry t) {index : Nat} (inside : index < t.pieces.length)

include geometry inside

theorem issue_rest (asked left more : Nat) (pp : PartialPiece) (slots : asked + left = blockCount t index)
    (states : pp.states = List.replicate asked .requested ++ List.replicate left .missing) :
    issue t index (left + more) pp = (List.range' asked left).map (requestOf t index) := by
  induction left generalizing asked pp with
  | zero =>
    have none_missing : nextMissing t index pp = none := by
      have all : pp.states.findIdx? (fun state => decide (state = .missing)) = none := by
        rw [states, List.findIdx?_eq_none_iff]
        simp
      rw [nextMissing, all]
    cases more with
    | zero => rfl
    | succ more => rw [Nat.zero_add, issue, none_missing]; rfl
  | succ left ih =>
    have first : pp.states.findIdx? (fun state => decide (state = .missing)) = some asked := by
      rw [states, List.findIdx?_append, List.findIdx?_replicate, List.replicate_succ, List.findIdx?_cons]
      simp
    have taken : nextMissing t index pp = some (requestOf t index asked, askedIn asked pp) :=
      nextMissing_at geometry inside (by omega) first
    rw [Nat.add_right_comm, issue, taken, List.range'_succ, List.map_cons]
    refine congrArg (requestOf t index asked :: ·) (ih (asked + 1) (askedIn asked pp) (by omega) ?_)
    rw [askedIn, states, List.replicate_succ, List.replicate_succ']
    simp

theorem issue_fresh (more : Nat) :
    issue t index (blockCount t index + more) (freshPiece t index) =
      (List.range (blockCount t index)).map (requestOf t index) := by
  rw [List.range_eq_range']
  apply issue_rest geometry inside 0 (blockCount t index) more (freshPiece t index) (Nat.zero_add _)
  exact fresh_states geometry inside

omit geometry inside in
theorem requests_tile (asked left : Nat) (slots : asked + left = blockCount t index) :
    Tiles (min (asked * kBlockSize) (pieceSize t index)) ((List.range' asked left).map (requestOf t index))
      (pieceSize t index) := by
  induction left generalizing asked with
  | zero =>
    have whole : pieceSize t index ≤ asked * kBlockSize := by
      rw [← Nat.add_zero asked, slots, blockCount, kBlockSize]
      omega
    exact Nat.min_eq_right whole
  | succ left ih =>
    have start : asked * kBlockSize < pieceSize t index := slot_inside index (by omega)
    have rest := ih (asked + 1) (by omega)
    rw [List.range'_succ, List.map_cons]
    have next : min (asked * kBlockSize) (pieceSize t index) + (requestOf t index asked).length =
        min ((asked + 1) * kBlockSize) (pieceSize t index) := by
      rw [requestOf, Nat.add_mul, Nat.one_mul]
      dsimp only
      omega
    refine ⟨(Nat.min_eq_left (Nat.le_of_lt start)).symm, ?_, Nat.min_le_left _ _, ?_⟩
    · rw [requestOf, kBlockSize]
      rw [kBlockSize] at start
      dsimp only
      omega
    · rw [next]
      exact rest

end Requests

def requests (t : TorrentFile) (index : Nat) : List BlockRequest :=
  issue t index (blockCount t index) (freshPiece t index)

def Answers (t : TorrentFile) (block : Block) : Prop :=
  ∃ req ∈ requests t block.pieceIndex, block.offset = req.offset ∧ block.data.length = req.length

/-- A manager and, for each piece, the blocks accepted since it was activated or last failed. -/
structure Delivery where
  progress : Progress
  attempt : Nat → List Block

def noted (sha1 : Bytes → Bytes) (d : Delivery) : Call → Nat → List Block
  | .pickBlock _ _ _ _, index =>
    if d.progress.pieces.active.find? index = none then [] else d.attempt index
  | .onBlock block, index =>
    if index = block.pieceIndex then
      match d.progress.pieces.onBlock sha1 block with
      | .error _ => []
      | .ok (result, _) =>
        if result.status = .rejected then d.attempt index
        else if result.status = .incomplete then d.attempt index ++ [block]
        else []
    else d.attempt index
  | _, index => d.attempt index

def deliver (sha1 : Bytes → Bytes) (d : Delivery) (c : Call) : Option Delivery :=
  (call sha1 d.progress c).map (fun next => ⟨next, noted sha1 d c⟩)

def Requested (sha1 : Bytes → Bytes) (t : TorrentFile) (d : Delivery) (c : Call) : Prop :=
  ∀ block result next, c = .onBlock block → d.progress.pieces.onBlock sha1 block = .ok (result, next) →
    result.status ≠ .rejected → Answers t block

def Delivered (sha1 : Bytes → Bytes) (t : TorrentFile) : Delivery → Prop :=
  ReachableWithin (deliver sha1) (fun d => d = ⟨{ pieces := create t }, fun _ => []⟩) (Requested sha1 t)

/-- The received blocks of a piece are those of the attempt, each in a slot of its own. -/
structure Assembled (pieces : PieceManager) (index : Nat) (attempt : List Block) : Prop where
  blocks : ∀ b bytes, pieces.got index b = some bytes ↔
    ∃ block ∈ attempt, block.offset = b * kBlockSize ∧ block.data = bytes
  aligned : ∀ block ∈ attempt, ∃ b, block.offset = b * kBlockSize
  apart : (attempt.map Block.offset).Nodup

theorem Assembled.empty {pieces : PieceManager} {index : Nat} (nothing : ∀ b, pieces.got index b = none) :
    Assembled pieces index [] := by
  refine ⟨?_, nofun, List.nodup_nil⟩
  intro b bytes
  rw [nothing b]
  exact iff_of_false nofun nofun

theorem Assembled.frame {pieces next : PieceManager} {index : Nat} {attempt : List Block}
    (assembled : Assembled pieces index attempt) (same : ∀ b, next.got index b = pieces.got index b) :
    Assembled next index attempt := by
  refine ⟨?_, assembled.aligned, assembled.apart⟩
  intro b bytes
  rw [same b]
  exact assembled.blocks b bytes

section Filing

variable {t : TorrentFile} {pieces : PieceManager} {block : Block} {pp : PartialPiece} {b : Nat}
  (fits : Fits pieces block pp b) {attempt : List Block}
  (assembled : Assembled pieces block.pieceIndex attempt)

include fits assembled

theorem Assembled.free (other : Block) (member : other ∈ attempt) : other.offset ≠ block.offset := by
  intro same
  have filled := (assembled.blocks b other.data).mpr ⟨other, member, same.trans fits.offset, rfl⟩
  rw [got_found fits.found, gotIn, if_neg fits.unreceived] at filled
  cases filled

theorem Assembled.grow {next : PieceManager}
    (filed : ∀ other, next.got block.pieceIndex other =
      if other = b then some block.data else pieces.got block.pieceIndex other) :
    Assembled next block.pieceIndex (attempt ++ [block]) := by
  refine ⟨?_, ?_, ?_⟩
  · intro other bytes
    rw [filed other]
    have slots : block.offset = other * kBlockSize ↔ other = b := by
      rw [fits.offset, kBlockSize]
      omega
    constructor
    · intro found
      by_cases here : other = b
      · rw [if_pos here] at found
        exact ⟨block, by simp, slots.mpr here, Option.some.inj found⟩
      · rw [if_neg here] at found
        obtain ⟨old, member, place, data⟩ := (assembled.blocks other bytes).mp found
        exact ⟨old, List.mem_append_left _ member, place, data⟩
    · rintro ⟨entry, member, place, data⟩
      rcases List.mem_append.mp member with old | new
      · have elsewhere : other ≠ b := by
          intro here
          exact assembled.free fits entry old (place.trans (slots.mpr here).symm)
        rw [if_neg elsewhere]
        exact (assembled.blocks other bytes).mpr ⟨entry, old, place, data⟩
      · cases List.mem_singleton.mp new
        rw [if_pos (slots.mp place), data]
  · intro entry member
    rcases List.mem_append.mp member with old | new
    · exact assembled.aligned entry old
    · cases List.mem_singleton.mp new
      exact ⟨b, fits.offset⟩
  · rw [List.map_append, List.nodup_append]
    refine ⟨assembled.apart, List.nodup_singleton _, ?_⟩
    intro first inside second here
    obtain ⟨entry, member, rfl⟩ := List.mem_map.mp inside
    cases List.mem_singleton.mp here
    exact assembled.free fits entry member

end Filing

section Runs

variable {sha1 : Bytes → Bytes} {t : TorrentFile} (geometry : Geometry t)

theorem got_congr {pieces next : PieceManager} (same : next.active = pieces.active) (index b : Nat) :
    next.got index b = pieces.got index b := by
  rw [got, got, same]

theorem recheck_active {pieces next : PieceManager} {index : Nat} {data : Bytes}
    (done : recheck sha1 pieces index data = .ok next) : next.active = pieces.active := by
  unfold recheck at done
  split at done
  · obtain ⟨field, -, rest⟩ := bind_ok done
    cases rest
    rfl
  · cases done
    rfl

theorem setOwner_got (pieces : PieceManager) (index other b : Nat) (owner : Option Nat) :
    (pieces.setOwner index owner).got other b = pieces.got other b := by
  rw [got, got, setOwner, Table.find_modify]
  split
  · cases pieces.active.find? other with
    | none => rfl
    | some pp => rfl
  · rfl

include geometry

theorem pickBlock_got {pieces : PieceManager} (valid : Valid t pieces) (peerHas : Bitfield)
    (availability : List Nat) (tag : Nat) (choice : Choice) (index b : Nat) :
    (pieces.pickBlock peerHas availability tag choice).2.got index b = pieces.got index b := by
  cases picked : pieces.pickBlock peerHas availability tag choice with
  | mk answer after =>
    cases answer with
    | none => rw [pickBlock_none geometry valid _ _ _ _ _ picked]
    | some req =>
      obtain ⟨opened, pp, slot, took⟩ := pickBlock_some geometry valid _ _ _ _ _ _ picked
      exact took.got index b

theorem mem_requests {index : Nat} (inside : index < t.pieces.length) (req : BlockRequest) :
    req ∈ requests t index ↔ ∃ b < blockCount t index, req = requestOf t index b := by
  rw [requests, ← Nat.add_zero (blockCount t index), issue_fresh geometry inside, List.mem_map]
  constructor
  · rintro ⟨b, low, rfl⟩
    exact ⟨b, List.mem_range.mp low, rfl⟩
  · rintro ⟨b, low, rfl⟩
    exact ⟨b, List.mem_range.mpr low, rfl⟩

theorem Answers.whole {pieces : PieceManager} (valid : Valid t pieces) {block : Block} {pp : PartialPiece}
    {b : Nat} (fits : Fits pieces block pp b) (answers : Answers t block) :
    block.data.length = (requestOf t block.pieceIndex b).length := by
  obtain ⟨req, issued, place, length⟩ := answers
  obtain ⟨slot, -, rfl⟩ := (mem_requests geometry (valid.inside _ fits.counted) req).mp issued
  have same : slot = b := by
    have offset : b * kBlockSize = slot * kBlockSize := fits.offset.symm.trans place
    rw [kBlockSize] at offset
    omega
  rw [length, same]

theorem file_assembled {d : Delivery} {block : Block} {result : BlockResult} {next : PieceManager}
    (valid : Valid t d.progress.pieces)
    (assembled : ∀ index, Assembled d.progress.pieces index (d.attempt index))
    (answers : result.status ≠ .rejected → Answers t block)
    (filed : d.progress.pieces.onBlock sha1 block = .ok (result, next)) (index : Nat) :
    Assembled next index (noted sha1 d (.onBlock block) index) := by
  simp only [noted, filed]
  rcases onBlock_cases sha1 _ _ _ _ filed with ⟨rejected, same⟩ | ⟨pp, b, fits, judged⟩
  · rw [same, if_pos rejected, ite_self]
    exact assembled index
  · have verdict := fileBlock_verdict sha1 _ _ judged
    have taken : result.status ≠ .rejected := by
      cases verdict <;> exact nofun
    have received := verdict.got valid fits (Answers.whole geometry valid fits (answers taken)) index
    by_cases here : index = block.pieceIndex
    · subst here
      simp only [if_true] at received
      rw [if_pos rfl, if_neg taken]
      by_cases open_ : result.status = .incomplete
      · simp only [if_pos open_] at received
        rw [if_pos open_]
        exact (assembled block.pieceIndex).grow fits received
      · simp only [if_neg open_] at received
        rw [if_neg open_]
        exact Assembled.empty received
    · simp only [if_neg here] at received
      rw [if_neg here]
      exact (assembled index).frame received

theorem deliver_assembled {d next : Delivery} {c : Call} (tidy : Tidy t d.progress)
    (assembled : ∀ index, Assembled d.progress.pieces index (d.attempt index))
    (requested : Requested sha1 t d c) (moves : deliver sha1 d c = some next) (index : Nat) :
    Assembled next.progress.pieces index (next.attempt index) := by
  have valid := tidy.counted.valid
  obtain ⟨after, called, rfl⟩ := Option.map_eq_some_iff.mp moves
  cases c with
  | recheck other data =>
    simp only [call] at called
    split at called
    · cases called
    split at called
    · cases called
    rename_i pieces done
    cases called
    exact (assembled index).frame (got_congr (recheck_active done) index)
  | pickBlock peerHas availability tag choice =>
    cases called
    have same := pickBlock_got geometry valid peerHas availability tag choice index
    simp only [noted]
    split
    · rename_i idle
      apply Assembled.empty
      intro b
      rw [same b, got, idle]
      rfl
    · exact (assembled index).frame same
  | onBlock block =>
    simp only [call] at called
    split at called
    · cases called
    rename_i result pieces filed
    cases called
    exact file_assembled geometry valid assembled (requested block result pieces rfl filed) filed index
  | release reqs =>
    cases called
    exact (assembled index).frame (got_release _ reqs index)
  | setOwner other owner =>
    cases called
    exact (assembled index).frame (fun b => setOwner_got _ other index b owner)

theorem delivered_assembled {d : Delivery} (delivered : Delivered sha1 t d) :
    Tidy t d.progress ∧ ∀ index, Assembled d.progress.pieces index (d.attempt index) := by
  induction delivered with
  | start d begins =>
    subst begins
    exact ⟨create_tidy, fun index => Assembled.empty (fun b => rfl)⟩
  | next d after c reached requested moves ih =>
    refine ⟨?_, deliver_assembled geometry ih.1 ih.2 requested moves⟩
    obtain ⟨progress, called, rfl⟩ := Option.map_eq_some_iff.mp moves
    exact call_tidy geometry ih.1 c called

end Runs

theorem arranged_by {α β : Type} (image : α → β) (items : List α) (images : List β)
    (same : images.Perm (items.map image)) :
    ∃ arranged : List α, images = arranged.map image ∧ arranged.Perm items := by
  have lifted := congrFun (congrFun (List.eq_map_comp_perm image) images) items
  exact lifted.mpr same

section Verdicts

variable {t : TorrentFile} (geometry : Geometry t) {pieces : PieceManager} (valid : Valid t pieces)
  {block : Block} {pp : PartialPiece} {b : Nat} (fits : Fits pieces block pp b)
  (whole : block.data.length = (requestOf t block.pieceIndex b).length) {attempt : List Block}
  (assembled : Assembled pieces block.pieceIndex attempt)
  (full : ¬ (filedPiece pp block b).received < (filedPiece pp block b).states.length)

include geometry valid fits whole assembled full

/-- The blocks of a full attempt: one for each slot, with the bytes of the slot. -/
theorem Assembled.slots :
    ((attempt ++ [block]).map Block.offset).Perm
        ((List.range (blockCount t block.pieceIndex)).map (· * kBlockSize)) ∧
      ∀ entry ∈ attempt ++ [block], ∀ slot < blockCount t block.pieceIndex, entry.offset = slot * kBlockSize →
        entry.data = chunk kBlockSize (filedPiece pp block b).data slot := by
  obtain ⟨-, -, width, -⟩ := filedPiece_facts geometry valid fits
  -- the piece as it is when the block is filed and no verdict is given yet
  let filed : PieceManager :=
    { pieces with active := pieces.active.modify block.pieceIndex (fun _ => filedPiece pp block b) }
  have found : filed.active.find? block.pieceIndex = some (filedPiece pp block b) := by
    show (pieces.active.modify block.pieceIndex _).find? block.pieceIndex = _
    rw [Table.find_modify, if_pos rfl, fits.found]
    rfl
  have received : ∀ other, filed.got block.pieceIndex other =
      if other = b then some block.data else pieces.got block.pieceIndex other := by
    intro other
    rw [got_found found, filedPiece_got valid fits whole other, got_found fits.found]
  have grown := assembled.grow fits received
  have bytes : ∀ slot < blockCount t block.pieceIndex,
      filed.got block.pieceIndex slot = some (chunk kBlockSize (filedPiece pp block b).data slot) := by
    intro slot low
    rw [received]
    exact filedPiece_chunk valid fits whole geometry full slot low
  constructor
  · apply (List.perm_ext_iff_of_nodup grown.apart ?_).mpr
    · intro offset
      rw [List.mem_map, List.mem_map]
      constructor
      · rintro ⟨entry, member, rfl⟩
        obtain ⟨slot, place⟩ := grown.aligned entry member
        have filled := (grown.blocks slot entry.data).mpr ⟨entry, member, place, rfl⟩
        rw [got_found found, gotIn] at filled
        split at filled
        · rename_i here
          obtain ⟨low, -⟩ := List.getElem?_eq_some_iff.mp here
          exact ⟨slot, List.mem_range.mpr (width ▸ low), place.symm⟩
        · cases filled
      · rintro ⟨slot, low, rfl⟩
        obtain ⟨entry, member, place, -⟩ := (grown.blocks slot _).mp (bytes slot (List.mem_range.mp low))
        exact ⟨entry, member, place⟩
    · apply List.nodup_range.map
      intro first second same
      exact Nat.eq_of_mul_eq_mul_right (by decide) same
  · intro entry member slot low place
    have filled := (grown.blocks slot entry.data).mpr ⟨entry, member, place, rfl⟩
    rw [bytes slot low] at filled
    exact (Option.some.inj filled).symm

theorem Assembled.concatenation :
    ∃ arranged : List Block, arranged.Perm (attempt ++ [block]) ∧
      arranged.map Block.offset = (List.range (blockCount t block.pieceIndex)).map (· * kBlockSize) ∧
      (arranged.map Block.data).flatten = (filedPiece pp block b).data := by
  obtain ⟨-, -, -, size⟩ := filedPiece_facts geometry valid fits
  obtain ⟨slots, bytes⟩ := assembled.slots geometry valid fits whole full
  obtain ⟨arranged, places, same⟩ := arranged_by Block.offset (attempt ++ [block]) _ slots.symm
  refine ⟨arranged, same, places.symm, ?_⟩
  have chunks : arranged.map Block.data =
      (List.range (blockCount t block.pieceIndex)).map (chunk kBlockSize (filedPiece pp block b).data) := by
    have count : arranged.length = blockCount t block.pieceIndex := by
      have lengths := congrArg List.length places
      rw [List.length_map, List.length_map, List.length_range] at lengths
      exact lengths.symm
    apply List.ext_getElem
    · rw [List.length_map, List.length_map, List.length_range, count]
    · intro slot low high
      rw [List.length_map] at low
      have place : slot * kBlockSize = arranged[slot].offset := by
        have entry := congrArg (fun offsets => offsets[slot]?) places
        simp only [List.getElem?_map, List.getElem?_range (count ▸ low), List.getElem?_eq_getElem low,
          Option.map_some, Option.some.injEq] at entry
        exact entry
      rw [List.getElem_map, List.getElem_map, List.getElem_range]
      exact bytes arranged[slot] (same.mem_iff.mp (List.getElem_mem low)) slot (count ▸ low) place.symm
  rw [chunks, chunks_take, List.take_of_length_le]
  rw [size, blockCount, kBlockSize]
  omega

end Verdicts

/-- In every run whose accepted blocks answer requests: what `next_missing` issues for a piece
tiles it, and a verdict is about the blocks accepted since the piece was activated or last
failed, put together slot by slot. -/
theorem verdict_on_delivered (sha1 : Bytes → Bytes) (data : Bytes) (t : TorrentFile)
    (accepted : parseTorrent sha1 data = .ok t) (d : Delivery) (delivered : Delivered sha1 t d) :
    (∀ index < t.pieces.length, Tiles 0 (requests t index) (pieceSize t index)) ∧
    (∀ index pp req after, d.progress.pieces.active.find? index = some pp →
      nextMissing t index pp = some (req, after) → req ∈ requests t index) ∧
    ∀ block result next, Answers t block → d.progress.pieces.onBlock sha1 block = .ok (result, next) →
      (result.status = .pieceVerified ∨ result.status = .pieceFailed) →
      ∃ arranged : List Block, arranged.Perm (d.attempt block.pieceIndex ++ [block]) ∧
        arranged.map Block.offset = (requests t block.pieceIndex).map BlockRequest.offset ∧
        result.piece = ⟨block.pieceIndex, (arranged.map Block.data).flatten⟩ ∧
        (result.status = .pieceVerified ↔
          verify sha1 d.progress.pieces block.pieceIndex (arranged.map Block.data).flatten = true) := by
  have geometry := accepted_geometry sha1 data t accepted
  obtain ⟨tidy, assembled⟩ := delivered_assembled geometry delivered
  have valid := tidy.counted.valid
  have listed : ∀ index < t.pieces.length,
      requests t index = (List.range (blockCount t index)).map (requestOf t index) :=
    fun index inside => issue_fresh geometry inside 0
  refine ⟨?_, ?_, ?_⟩
  · intro index inside
    have tiles := requests_tile (t := t) 0 (blockCount t index) (Nat.zero_add _)
    rw [Nat.zero_mul, Nat.zero_min] at tiles
    rw [listed index inside, List.range_eq_range']
    exact tiles
  · intro index pp req after found taken
    obtain ⟨counted, -, part⟩ := valid.parts index pp found
    have inside := valid.inside index counted
    obtain ⟨b, missing, rfl, -⟩ := nextMissing_some geometry index inside pp after req part taken
    obtain ⟨low, -⟩ := List.getElem?_eq_some_iff.mp missing
    exact (mem_requests geometry inside _).mpr ⟨b, part.states ▸ low, rfl⟩
  · intro block result next answers filed closed
    rcases onBlock_cases sha1 _ _ _ _ filed with ⟨rejected, -⟩ | ⟨pp, b, fits, judged⟩
    · rw [rejected] at closed
      rcases closed with verified | failed
      · cases verified
      · cases failed
    · have whole := answers.whole geometry valid fits
      have offsets : (requests t block.pieceIndex).map BlockRequest.offset =
          (List.range (blockCount t block.pieceIndex)).map (· * kBlockSize) := by
        rw [listed _ (valid.inside _ fits.counted), List.map_map]
        rfl
      rw [offsets]
      cases fileBlock_verdict sha1 _ _ judged with
      | incomplete short =>
        rcases closed with verified | failed
        · cases verified
        · cases failed
      | failed full wrong =>
        obtain ⟨arranged, same, places, bytes⟩ :=
          (assembled block.pieceIndex).concatenation geometry valid fits whole full
        refine ⟨arranged, same, places, by rw [bytes], ?_⟩
        rw [bytes, wrong]
        exact iff_of_false nofun nofun
      | verified _ full right stored =>
        obtain ⟨arranged, same, places, bytes⟩ :=
          (assembled block.pieceIndex).concatenation geometry valid fits whole full
        refine ⟨arranged, same, places, by rw [bytes], ?_⟩
        rw [bytes, right]
        exact iff_of_true rfl rfl

section Example

def longBlock (first : UInt8) : Block := ⟨0, 0, first :: List.replicate 16383 0⟩

def lastBlock (byte : UInt8) : Block := ⟨0, 16384, [byte]⟩

/-- Both blocks are asked for and come last one first. The piece fails, both are asked for again, and
the last one has come. -/
def twice : List Call :=
  let ask : Call := .pickBlock ⟨1, [128]⟩ [1] 0 ⟨[0], 0⟩
  [ask, ask, .onBlock (lastBlock 5), .onBlock (longBlock 0), ask, ask, .onBlock (lastBlock 6)]

theorem twoBlocks_requests : requests Session.twoBlocks 0 = [⟨0, 0, 16384⟩, ⟨0, 16384, 1⟩] := by decide +kernel

theorem longBlock_answers (first : UInt8) : Answers Session.twoBlocks (longBlock first) := by
  refine ⟨⟨0, 0, 16384⟩, ?_, rfl, ?_⟩
  · exact twoBlocks_requests ▸ List.mem_cons_self
  · exact List.length_cons.trans (congrArg (· + 1) List.length_replicate)

theorem lastBlock_answers (byte : UInt8) : Answers Session.twoBlocks (lastBlock byte) :=
  ⟨⟨0, 16384, 1⟩, twoBlocks_requests ▸ List.mem_cons_of_mem _ List.mem_cons_self, rfl, rfl⟩

end Example

/-- The second attempt is judged, in the order of its slots and without a block of the first. -/
theorem verdict_on_delivered_twice :
    ∃ d result next, Delivered Session.headDigest Session.twoBlocks d ∧ d.attempt 0 = [lastBlock 6] ∧
      d.progress.pieces.onBlock Session.headDigest (longBlock 1) = .ok (result, next) ∧
      result.status = .pieceVerified ∧
      ∃ arranged : List Block, arranged.Perm [lastBlock 6, longBlock 1] ∧
        arranged.map Block.offset = [0, 16384] ∧
        result.piece = ⟨0, (arranged.map Block.data).flatten⟩ := by
  have seen : (Transition.run (deliver Session.headDigest) ⟨{ pieces := create Session.twoBlocks }, fun _ => []⟩
      twice).bind (fun d => (d.progress.pieces.onBlock Session.headDigest (longBlock 1)).toOption.map
        (fun filed => (d.attempt 0, filed.1.status))) = some ([lastBlock 6], .pieceVerified) := by
    decide +kernel
  obtain ⟨d, ran, filed⟩ := Option.bind_eq_some_iff.mp seen
  obtain ⟨⟨result, next⟩, done, shown⟩ := Option.map_eq_some_iff.mp filed
  obtain ⟨attempt, verified⟩ := Prod.mk.inj shown
  have outcome := toOption_ok done
  have delivered : Delivered Session.headDigest Session.twoBlocks d := by
    have begins : Delivered Session.headDigest Session.twoBlocks
        ⟨{ pieces := create Session.twoBlocks }, fun _ => []⟩ := .start _ rfl
    refine begins.run ?_ ran
    rintro state c member block _ _ rfl - -
    simp only [twice, List.mem_cons, reduceCtorEq, Call.onBlock.injEq, List.not_mem_nil, false_or, or_false]
      at member
    rcases member with rfl | rfl | rfl
    · exact lastBlock_answers 5
    · exact longBlock_answers 0
    · exact lastBlock_answers 6
  obtain ⟨-, -, verdicts⟩ := verdict_on_delivered Session.headDigest Session.twoBlockInfo Session.twoBlocks
    Session.twoBlocks_accepted d delivered
  obtain ⟨arranged, same, places, piece, -⟩ :=
    verdicts _ result next (longBlock_answers 1) outcome (.inl verified)
  have first : (longBlock 1).pieceIndex = 0 := rfl
  rw [first, attempt] at same
  rw [first, twoBlocks_requests] at places
  exact ⟨d, result, next, delivered, attempt, outcome, verified, arranged, same, places, piece⟩

end TorrentPeer.PieceManager
