import TorrentPeer.Runtime.Accounting
import TorrentPeer.Runtime.Convictions

/-! How much is still to come: each right block brings the end of the download exactly one block
nearer. -/

namespace TorrentPeer.PieceManager

open Splice Torrent

variable (t : TorrentFile) (content : Bytes)

def tainted (pieces : PieceManager) (index : Nat) : Bool :=
  (List.range (blockCount t index)).any (fun b => (pieces.got index b).any (fun data =>
    decide (data ≠ chunk kBlockSize (Session.pieceBytes t content index) b)))

/-- The blocks a piece still needs: one for each open slot, and one for each slot again if what is
there already cannot pass. -/
def needed (pieces : PieceManager) (index : Nat) : Nat :=
  if pieces.have_.get index = true then 0
  else blockCount t index - pile (fun _ _ => 1) t pieces index +
    if tainted t content pieces index = true then blockCount t index else 0

def needs (pieces : PieceManager) : Nat := (Finset.range pieces.pieceCount).sum (needed t content pieces)

section Slots

variable {t : TorrentFile} {content : Bytes} {pieces next : PieceManager} {index : Nat}

theorem tainted_iff : tainted t content pieces index = true ↔ ∃ b < blockCount t index, ∃ data,
    pieces.got index b = some data ∧ data ≠ chunk kBlockSize (Session.pieceBytes t content index) b := by
  simp only [tainted, List.any_eq_true, List.mem_range, Option.any_eq_true, decide_eq_true_eq]

theorem needed_congr (bits : next.have_.get index = pieces.have_.get index)
    (same : ∀ b, next.got index b = pieces.got index b) :
    needed t content next index = needed t content pieces index := by
  have taint : tainted t content next index = tainted t content pieces index := by
    rw [tainted, tainted]
    simp only [same]
  rw [needed, needed, bits, taint, pile_congr _ t same]

theorem bulk_ones : bulk (fun _ _ => 1) t index = blockCount t index := by
  rw [bulk, ← Finset.card_eq_sum_ones, Finset.card_range]

theorem pile_open (geometry : Geometry t) (valid : Valid t pieces) (counted : index < pieces.pieceCount) :
    pile (fun _ _ => 1) t pieces index < blockCount t index := by
  obtain ⟨b, slot, empty⟩ := slot_open geometry valid counted
  calc
    pile (fun _ _ => 1) t pieces index < (Finset.range (blockCount t index)).sum (fun _ => 1) := by
      apply Finset.sum_lt_sum
      · intro other _
        split
        · exact Nat.le_refl 1
        · exact Nat.zero_le 1
      · exact ⟨b, Finset.mem_range.mpr slot, by rw [empty]; exact Nat.zero_lt_one⟩
    _ = blockCount t index := by rw [← Finset.card_eq_sum_ones, Finset.card_range]

theorem needs_zero (content : Bytes) (geometry : Geometry t) (valid : Valid t pieces) :
    needs t content pieces = 0 ↔ pieces.isComplete = true := by
  rw [needs, Finset.sum_eq_zero_iff, isComplete, decide_eq_true_iff, valid.haves]
  have whole : (List.range pieces.pieceCount).countP pieces.have_.get = pieces.pieceCount ↔
      ∀ index ∈ List.range pieces.pieceCount, pieces.have_.get index = true := by
    rw [← List.countP_eq_length, List.length_range]
  rw [whole]
  constructor
  · intro none_left index member
    by_contra lacking
    have nothing := none_left index (by rw [Finset.mem_range]; exact List.mem_range.mp member)
    have open_slot := pile_open geometry valid (List.mem_range.mp member)
    rw [needed, if_neg lacking] at nothing
    omega
  · intro all index member
    rw [needed, if_pos (all index (List.mem_range.mpr (Finset.mem_range.mp member)))]

end Slots

section Filing

variable {sha1 : Bytes → Bytes} {t : TorrentFile} {content : Bytes} (geometry : Geometry t)
  (reference : Session.Reference sha1 t content) {pieces next : PieceManager} (valid : Valid t pieces)
  {block : Block} {pp : PartialPiece} {b : Nat} (fits : Fits pieces block pp b)
  (whole : block.data.length = (requestOf t block.pieceIndex b).length)
  (right : block.data = chunk kBlockSize (Session.pieceBytes t content block.pieceIndex) b)

include geometry reference valid fits whole right

theorem passes_untainted (full : ¬ (filedPiece pp block b).received < (filedPiece pp block b).states.length) :
    verify sha1 pieces block.pieceIndex (filedPiece pp block b).data = true ↔
      tainted t content pieces block.pieceIndex = false := by
  have inside := valid.inside block.pieceIndex fits.counted
  obtain ⟨-, -, -, size⟩ := filedPiece_facts geometry valid fits
  have chunks := filedPiece_chunk valid fits whole geometry full
  have torrent : pieces.torrent = (PieceManager.create t).torrent := valid.torrent
  have length : (filedPiece pp block b).data.length = (Session.pieceBytes t content block.pieceIndex).length := by
    rw [size, reference.piece_length geometry block.pieceIndex inside]
  have passes : verify sha1 pieces block.pieceIndex (filedPiece pp block b).data = true ↔
      (filedPiece pp block b).data = Session.pieceBytes t content block.pieceIndex := by
    rw [verify_congr sha1 torrent]
    constructor
    · exact reference.only block.pieceIndex inside _ size
    · intro same
      rw [same]
      exact reference.passes block.pieceIndex inside
  rw [passes, Bool.eq_false_iff, Ne, tainted_iff]
  constructor
  · intro same
    rintro ⟨other, slot, data, received, wrong⟩
    have stored := chunks other slot
    rw [same] at stored
    by_cases here : other = b
    · rw [here, fits.not_got] at received
      cases received
    · rw [if_neg here, received] at stored
      exact wrong (Option.some.inj stored)
  · intro clean
    apply chunks_ext kBlockSize (by decide) _ _ length
    intro other inner
    rw [size, ← Session.block_inside] at inner
    have stored := chunks other inner
    by_cases here : other = b
    · rw [if_pos here] at stored
      rw [← Option.some.inj stored, right, here]
    · rw [if_neg here] at stored
      by_contra wrong
      exact clean ⟨other, inner, _, stored, wrong⟩

/-- A right block brings its piece one block nearer to its end. -/
theorem Verdict.needed {result : BlockResult} (verdict : Verdict sha1 pieces block pp b result next) :
    needed t content next block.pieceIndex + 1 = needed t content pieces block.pieceIndex := by
  have slots := verdict.pile geometry valid fits whole (w := fun _ _ => 1)
  have open_slot := pile_open geometry valid fits.counted
  have after := verdict.got valid fits whole block.pieceIndex
  have lacking : ¬ pieces.have_.get block.pieceIndex = true := by
    rw [fits.wanted]
    decide
  rw [bulk_ones] at slots
  cases verdict with
  | incomplete short =>
    rw [if_pos rfl] at slots
    have taint : tainted t content
        { pieces with active := pieces.active.modify block.pieceIndex (fun _ => filedPiece pp block b) }
        block.pieceIndex = tainted t content pieces block.pieceIndex := by
      rw [Bool.eq_iff_iff, tainted_iff, tainted_iff]
      constructor
      · rintro ⟨other, slot, data, received, wrong⟩
        rw [after other, if_pos rfl, if_pos rfl] at received
        by_cases here : other = b
        · rw [if_pos here] at received
          rw [← Option.some.inj received, here] at wrong
          exact absurd right wrong
        · rw [if_neg here] at received
          exact ⟨other, slot, data, received, wrong⟩
      · rintro ⟨other, slot, data, received, wrong⟩
        refine ⟨other, slot, data, ?_, wrong⟩
        rw [after other, if_pos rfl, if_pos rfl, if_neg, received]
        intro here
        rw [here, fits.not_got] at received
        cases received
    rw [PieceManager.needed, PieceManager.needed, if_neg lacking, if_neg lacking, taint]
    omega
  | failed full wrong =>
    have taint : tainted t content pieces block.pieceIndex = true := by
      by_contra clean
      rw [Bool.not_eq_true] at clean
      rw [(passes_untainted geometry reference valid fits whole right full).mpr clean] at wrong
      cases wrong
    have cleared : ¬ tainted t content
        { pieces with active := pieces.active.modify block.pieceIndex (fun _ => resetPiece (filedPiece pp block b)) }
        block.pieceIndex = true := by
      rw [tainted_iff]
      rintro ⟨other, slot, data, received, -⟩
      rw [after other, if_pos rfl, if_neg (by simp)] at received
      cases received
    rw [if_neg (by simp)] at slots
    rw [PieceManager.needed, PieceManager.needed, if_neg lacking, if_neg lacking, if_pos taint, if_neg cleared]
    omega
  | verified _ full passed stored =>
    have clean := (passes_untainted geometry reference valid fits whole right full).mp passed
    obtain ⟨-, -, -, bits⟩ := markHave_valid (erase_valid valid block.pieceIndex) block.pieceIndex fits.counted
      fits.wanted (by simp) stored
    have marked : next.have_.get block.pieceIndex = true := by
      rw [bits, decide_eq_true rfl, Bool.true_or]
    rw [if_neg (by simp)] at slots
    rw [PieceManager.needed, PieceManager.needed, if_neg lacking, if_pos marked, if_neg (by rw [clean]; decide)]
    omega

theorem Verdict.needs {result : BlockResult} (verdict : Verdict sha1 pieces block pp b result next) :
    needs t content next + 1 = needs t content pieces := by
  have count : next.pieceCount = pieces.pieceCount := by
    rw [(verdict.keeps_valid geometry valid fits).pieceCount, valid.pieceCount]
  have here := Finset.mem_range.mpr fits.counted
  have own := verdict.needed geometry reference valid fits whole right
  have others : ((Finset.range pieces.pieceCount).erase block.pieceIndex).sum
        (fun index => PieceManager.needed t content next index) =
      ((Finset.range pieces.pieceCount).erase block.pieceIndex).sum
        (fun index => PieceManager.needed t content pieces index) := by
    apply Finset.sum_congr rfl
    intro index member
    have elsewhere := Finset.ne_of_mem_erase member
    apply needed_congr
    · cases verdict with
      | incomplete short => rfl
      | failed full wrong => rfl
      | verified _ full passed stored =>
        obtain ⟨-, -, -, bits⟩ := markHave_valid (erase_valid valid block.pieceIndex) block.pieceIndex fits.counted
          fits.wanted (by simp) stored
        rw [bits, decide_eq_false elsewhere, Bool.false_or]
    · intro other
      rw [verdict.got valid fits whole index other, if_neg elsewhere]
  have split_next := Finset.add_sum_erase (Finset.range pieces.pieceCount) (PieceManager.needed t content next) here
  have split_old := Finset.add_sum_erase (Finset.range pieces.pieceCount) (PieceManager.needed t content pieces) here
  rw [PieceManager.needs, PieceManager.needs, count, ← split_next, ← split_old, others]
  omega

end Filing

end TorrentPeer.PieceManager

namespace TorrentPeer.Session

open Splice Torrent PieceManager Transition

def RightBlock (t : TorrentFile) (content : Bytes) (block : Block) : Prop :=
  block.data = slice content (block.pieceIndex * t.pieceLength.toNat + block.offset) block.data.length

theorem RightBlock.chunk {sha1 : Bytes → Bytes} {t : TorrentFile} {content : Bytes} (geometry : Geometry t)
    (reference : Reference sha1 t content) {block : Block} {b : Nat} (inside : block.pieceIndex < t.pieces.length)
    (offset : block.offset = b * kBlockSize) (slot : b < blockCount t block.pieceIndex)
    (whole : block.data.length = (requestOf t block.pieceIndex b).length) (right : RightBlock t content block) :
    block.data = Splice.chunk kBlockSize (pieceBytes t content block.pieceIndex) b := by
  have width : block.data.length = min kBlockSize (pieceSize t block.pieceIndex - b * kBlockSize) := whole
  rw [block_inside] at slot
  rw [Splice.chunk, reference.piece_length geometry block.pieceIndex inside, pieceBytes,
    slice_slice _ _ _ _ _ (by omega), ← width, ← offset]
  exact right

section Runs

variable {sha1 : Bytes → Bytes} {kernel : Kernel} {t : TorrentFile} {content : Bytes} {sys : Sys}

def Nearer (t : TorrentFile) (content : Bytes) (sys : Sys) (f : Flow) : Prop :=
  ∃ new, f.filed = sys.filed ++ new ∧ ((∀ entry ∈ new, RightBlock t content entry.block) →
    needs t content f.session.pieces + new.length = needs t content sys.session.pieces)

theorem Nearer.unfiled {f next : Flow} (before : Valid t f.session.pieces) (after : Valid t next.session.pieces)
    (nearer : Nearer t content sys f) (unfiled : Unfiled f next) : Nearer t content sys next := by
  obtain ⟨new, filed, exactly⟩ := nearer
  have same : needs t content next.session.pieces = needs t content f.session.pieces := by
    have count : next.session.pieces.pieceCount = f.session.pieces.pieceCount := by
      rw [after.pieceCount, before.pieceCount]
    rw [needs, needs, count]
    apply Finset.sum_congr rfl
    intro index _
    exact needed_congr (by rw [unfiled.have_]) (unfiled.got index)
  refine ⟨new, unfiled.filed.trans filed, ?_⟩
  rw [same]
  exact exactly

theorem Nearer.file {f next : Flow} {id : Nat} {block : Block} {pp : PartialPiece} {b : Nat} {result : BlockResult}
    (geometry : Geometry t) (reference : Reference sha1 t content) (valid : Valid t f.session.pieces)
    (nearer : Nearer t content sys f) (filing : Filing sha1 t f next id block pp b result) :
    Nearer t content sys next := by
  obtain ⟨new, filed, exactly⟩ := nearer
  refine ⟨new ++ [⟨id, block, result.status⟩], ?_, ?_⟩
  · rw [filing.filed, filed, List.append_assoc]
  · intro right
    have fits := filing.fits
    have own : RightBlock t content block := right ⟨id, block, result.status⟩ (by simp)
    have chunked := own.chunk geometry reference (valid.inside _ fits.counted) fits.offset
      (fits.slot valid) filing.whole
    have one := filing.verdict.needs geometry reference valid fits filing.whole chunked
    have rest := exactly (fun entry member => right entry (List.mem_append_left _ member))
    rw [List.length_append, List.length_singleton]
    omega

end Runs

/-- In any run from any reached state, as long as the blocks that come in are right, each of them
takes the download exactly one block nearer to its end: when `needs` of them have come in it is
complete, and not before. -/
theorem right_blocks_finish (sha1 : Bytes → Bytes) (kernel : Kernel) (t : TorrentFile) (content : Bytes)
    (reference : Reference sha1 t content) (sys later : Sys) (inputs : List Input) (new : List Filed)
    (reached : Reached sha1 kernel t sys) (ran : run (step sha1 kernel) sys inputs = some later)
    (more : later.filed = sys.filed ++ new) (right : ∀ entry ∈ new, RightBlock t content entry.block) :
    needs t content later.session.pieces + new.length = needs t content sys.session.pieces ∧
      (later.session.pieces.isComplete = true ↔ new.length = needs t content sys.session.pieces) := by
  have geometry := reached_geometry reached
  have books := reached_books reached
  have nearer : Nearer t content sys later.flow := by
    refine run_advances geometry (Nearer t content sys) ?_ ?_ books ⟨[], (List.append_nil _).symm, fun _ => rfl⟩ ran
    · intro f next books after nearer unfiled
      exact nearer.unfiled books.valid after.valid unfiled
    · intro f next id block pp b result books _ nearer filing
      exact nearer.file geometry reference books.valid filing
  obtain ⟨filed_since, filed, exactly⟩ := nearer
  have same : filed_since = new := List.append_cancel_left (filed.symm.trans more)
  subst same
  have law := exactly right
  have valid : Valid t later.session.pieces := (reached_books (reached.run ran)).valid
  have finished := needs_zero content geometry valid
  refine ⟨law, ?_⟩
  rw [← finished]
  have pieces : later.flow.session.pieces = later.session.pieces := rfl
  rw [pieces] at law
  omega

/-- The last block of a download comes in. -/
theorem right_blocks_finish_one_byte :
    ∃ sys later inputs, Reached spotDigest wholeKernel oneByteWanted sys ∧
      run (step spotDigest wholeKernel) sys inputs = some later ∧
      needs oneByteWanted [1] sys.session.pieces = 1 ∧ later.session.pieces.isComplete = true := by
  have shown : (rehearse spotDigest oneByteWanted (welcome oneByteWanted (ascii "h"))).bind (fun sys =>
      (run (step spotDigest wholeKernel) sys
        [arrives 1 (ascii "h") (Wire.Message.bytes (.piece 0 0 [1])), .dispatch (fun _ => [])]).map (fun later =>
          (needs oneByteWanted [1] sys.session.pieces, sys.filed.length, later.filed.map Filed.block))) =
        some (1, 0, [⟨0, 0, [1]⟩]) := by
    decide +kernel
  obtain ⟨sys, began, onward⟩ := Option.bind_eq_some_iff.mp shown
  obtain ⟨later, ran, seen⟩ := Option.map_eq_some_iff.mp onward
  obtain ⟨left, rest⟩ := Prod.mk.inj seen
  obtain ⟨none_yet, came⟩ := Prod.mk.inj rest
  have reached := rehearse_reached ⟨_, oneByteWanted_accepted⟩ began
  have filed : later.filed = sys.filed ++ later.filed := by
    rw [List.length_eq_zero_iff.mp none_yet]
    rfl
  have one : later.filed.length = 1 := by
    rw [← List.length_map (f := Filed.block), came]
    rfl
  refine ⟨sys, later, _, reached, ran, left, ?_⟩
  refine (right_blocks_finish spotDigest wholeKernel oneByteWanted [1] oneByteWanted_reference sys later _ later.filed
    reached ran filed ?_).2.mpr (by rw [one, left])
  intro entry member
  have block : entry.block ∈ later.filed.map Filed.block := List.mem_map_of_mem member
  rw [came, List.mem_singleton] at block
  rw [block, RightBlock]
  decide +kernel

end TorrentPeer.Session
