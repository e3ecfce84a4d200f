import TorrentPeer.Runtime.Attempts
import TorrentPeer.Runtime.PieceCounters

/-! Where everything that was downloaded went: into pieces that passed, into attempts that failed,
and into the blocks of pieces in progress. -/

namespace TorrentPeer.PieceManager

open Splice Torrent

section Weights

variable (w : Nat → Nat → Nat) (t : TorrentFile)

def pile (pieces : PieceManager) (index : Nat) : Nat :=
  (Finset.range (blockCount t index)).sum (fun b => if (pieces.got index b).isSome = true then w index b else 0)

def heap (pieces : PieceManager) : Nat := (Finset.range pieces.pieceCount).sum (pile w t pieces)

def bulk (index : Nat) : Nat := (Finset.range (blockCount t index)).sum (w index)

end Weights

section Bytes

variable (t : TorrentFile)

def blockBytes (index b : Nat) : Nat := (requestOf t index b).length

theorem blockBytes_sum (index count : Nat) :
    (Finset.range count).sum (blockBytes t index) = min (count * kBlockSize) (pieceSize t index) := by
  induction count with
  | zero => simp
  | succ count ih =>
    rw [Finset.sum_range_succ, ih, blockBytes, requestOf, Nat.add_mul, Nat.one_mul]
    dsimp only
    omega

theorem bulk_bytes (index : Nat) : bulk (blockBytes t) t index = pieceSize t index := by
  rw [bulk, blockBytes_sum]
  apply Nat.min_eq_right
  rw [blockCount, kBlockSize]
  omega

theorem Counted.left {t : TorrentFile} (geometry : Geometry t) {pieces : PieceManager} (counted : Counted t pieces) :
    pieces.bytesLeft + pieces.held.sum (pieceSize t) = t.totalLength := by
  have limit := held_bytes_le geometry counted.valid
  have total := geometry.total_high
  rw [kLimit] at total
  rw [bytesLeft, counted.valid.torrent, counted.bytes, subU64_le _ _ limit (by omega)]
  omega

end Bytes

section Verdicts

variable {w : Nat → Nat → Nat} {t : TorrentFile} (geometry : Geometry t) {pieces next : PieceManager}
  (valid : Valid t pieces) {block : Block} {pp : PartialPiece} {b : Nat} (fits : Fits pieces block pp b)
  (whole : block.data.length = (requestOf t block.pieceIndex b).length)

theorem slot_open (geometry : Geometry t) (valid : Valid t pieces) {index : Nat}
    (counted : index < pieces.pieceCount) :
    ∃ b < blockCount t index, pieces.got index b = none := by
  cases found : pieces.active.find? index with
  | none =>
    refine ⟨0, (blockCount_bound geometry index (valid.inside index counted)).1, ?_⟩
    rw [got, found]
    rfl
  | some pp =>
    obtain ⟨-, -, part⟩ := valid.parts index pp found
    have short : pp.states.count .received < pp.states.length := by
      rw [← part.received]
      exact part.unfinished
    have missing : ¬ ∀ state ∈ pp.states, BlockState.received = state := by
      intro all
      have full := List.count_eq_length.mpr all
      omega
    push Not at missing
    obtain ⟨state, member, other⟩ := missing
    obtain ⟨b, bound, value⟩ := List.mem_iff_getElem.mp member
    refine ⟨b, by rw [← part.states]; exact bound, ?_⟩
    rw [got_found found, gotIn, if_neg]
    rw [List.getElem?_eq_getElem bound, value]
    intro received
    exact other (Option.some.inj received).symm

theorem pile_congr (w : Nat → Nat → Nat) (t : TorrentFile) {index : Nat}
    (same : ∀ b, next.got index b = pieces.got index b) : pile w t next index = pile w t pieces index := by
  unfold pile
  apply Finset.sum_congr rfl
  intro b _
  rw [same b]

theorem Fits.not_got (fits : Fits pieces block pp b) : pieces.got block.pieceIndex b = none := by
  rw [got_found fits.found, gotIn, if_neg fits.unreceived]

include valid fits

theorem Fits.slot : b < blockCount t block.pieceIndex := by
  rw [← (valid.parts block.pieceIndex pp fits.found).2.2.states]
  exact fits.bound

theorem pile_filed :
    (Finset.range (blockCount t block.pieceIndex)).sum (fun other =>
        if other = b ∨ (pieces.got block.pieceIndex other).isSome = true then w block.pieceIndex other else 0) =
      pile w t pieces block.pieceIndex + w block.pieceIndex b := by
  have open_slot := fits.not_got
  have here := Finset.mem_range.mpr (fits.slot valid)
  have each : ∀ other ∈ Finset.range (blockCount t block.pieceIndex),
      (if other = b ∨ (pieces.got block.pieceIndex other).isSome = true then w block.pieceIndex other else 0) =
        (if (pieces.got block.pieceIndex other).isSome = true then w block.pieceIndex other else 0) +
          if other = b then w block.pieceIndex b else 0 := by
    intro other _
    by_cases same : other = b
    · subst same
      simp [open_slot]
    · simp [same]
  rw [Finset.sum_congr rfl each, Finset.sum_add_distrib, Finset.sum_ite_eq' _ b, if_pos here]
  rfl

include geometry whole

theorem Verdict.pile {sha1 : Bytes → Bytes} {result : BlockResult}
    (verdict : Verdict sha1 pieces block pp b result next) :
    pile w t next block.pieceIndex +
        (if result.status = .incomplete then 0 else bulk w t block.pieceIndex) =
      pile w t pieces block.pieceIndex + w block.pieceIndex b := by
  have after := verdict.got valid fits whole block.pieceIndex
  rw [← pile_filed valid fits]
  by_cases short : result.status = .incomplete
  · rw [if_pos short, Nat.add_zero, PieceManager.pile]
    apply Finset.sum_congr rfl
    intro other _
    rw [after other, if_pos rfl, if_pos short]
    by_cases same : other = b <;> simp [same]
  · have emptied : PieceManager.pile w t next block.pieceIndex = 0 := by
      apply Finset.sum_eq_zero
      intro other _
      rw [after other, if_pos rfl, if_neg short]
      rfl
    have full : ¬ (filedPiece pp block b).received < (filedPiece pp block b).states.length := by
      cases verdict with
      | incomplete _ => exact absurd rfl short
      | failed full _ => exact full
      | verified _ full _ _ => exact full
    rw [if_neg short, emptied, Nat.zero_add, bulk]
    apply Finset.sum_congr rfl
    intro other member
    have stored := filedPiece_chunk valid fits whole geometry full other (Finset.mem_range.mp member)
    by_cases same : other = b
    · rw [if_pos (Or.inl same)]
    · rw [if_neg same] at stored
      rw [if_pos (Or.inr (by rw [stored]; rfl))]

theorem Verdict.heap {sha1 : Bytes → Bytes} {result : BlockResult}
    (verdict : Verdict sha1 pieces block pp b result next) :
    heap w t next + (if result.status = .incomplete then 0 else bulk w t block.pieceIndex) =
      heap w t pieces + w block.pieceIndex b := by
  have count : next.pieceCount = pieces.pieceCount := by
    rw [(verdict.keeps_valid geometry valid fits).pieceCount, valid.pieceCount]
  have here := Finset.mem_range.mpr fits.counted
  have others : ((Finset.range pieces.pieceCount).erase block.pieceIndex).sum
        (fun index => PieceManager.pile w t next index) =
      ((Finset.range pieces.pieceCount).erase block.pieceIndex).sum
        (fun index => PieceManager.pile w t pieces index) := by
    apply Finset.sum_congr rfl
    intro index member
    apply pile_congr
    intro other
    rw [verdict.got valid fits whole index other, if_neg (Finset.ne_of_mem_erase member)]
  have own := verdict.pile geometry valid fits whole (w := w)
  have split_next := Finset.add_sum_erase (Finset.range pieces.pieceCount) (PieceManager.pile w t next) here
  have split_old := Finset.add_sum_erase (Finset.range pieces.pieceCount) (PieceManager.pile w t pieces) here
  rw [PieceManager.heap, PieceManager.heap, count, ← split_next, ← split_old, others]
  omega

end Verdicts

end TorrentPeer.PieceManager

namespace TorrentPeer.Session

open Splice Torrent PieceManager PeerManager Transition

/-- A move that files no block. -/
structure Unfiled (f next : Flow) : Prop where
  filed : next.filed = f.filed
  downloaded : next.session.downloaded = f.session.downloaded
  have_ : next.session.pieces.have_ = f.session.pieces.have_
  haveBytes : next.session.pieces.haveBytes = f.session.pieces.haveBytes
  got : ∀ index b, next.session.pieces.got index b = f.session.pieces.got index b

/-- A move that files one block into an open slot of its piece. -/
structure Filing (sha1 : Bytes → Bytes) (t : TorrentFile) (f next : Flow) (id : Nat) (block : Block)
    (pp : PartialPiece) (b : Nat) (result : BlockResult) : Prop where
  fits : Fits f.session.pieces block pp b
  whole : block.data.length = (requestOf t block.pieceIndex b).length
  verdict : Verdict sha1 f.session.pieces block pp b result next.session.pieces
  downloaded : next.session.downloaded = addU64 f.session.downloaded block.data.length
  filed : next.filed = f.filed ++ [⟨id, block, result.status⟩]

section Moves

variable {sha1 : Bytes → Bytes} {kernel : Kernel} {t : TorrentFile} {f next : Flow}

theorem file_downloaded {s taken judged : Session} {id : Nat} {block : Block} {result : BlockResult}
    {hosts : List Bytes} (took : s.takeBlock sha1 id block = .ok (result, taken))
    (verdict : taken.judge kernel result = .ok (hosts, judged)) :
    judged.downloaded = addU64 s.downloaded block.data.length := by
  obtain ⟨⟨answer, pieces⟩, -, same⟩ := bind_ok took
  cases same
  unfold judge at verdict
  split at verdict
  · cases verdict
    rfl
  · cases verdict
    rfl
  · split at verdict
    · cases verdict
    · cases verdict
      rfl
  · cases verdict
    rfl

theorem release_unfiled (f : Flow) (reqs : List BlockRequest) (peers : PeerManager) (queue : List PeerEvent) :
    Unfiled f { f with
      session := { f.session with peers := peers, pieces := f.session.pieces.release reqs }
      queue := queue } := by
  obtain ⟨bits, bytes⟩ := release_counters f.session.pieces reqs
  exact ⟨rfl, rfl, bits, bytes, got_release _ _⟩

theorem Quiet.advance (geometry : Geometry t) (books : Books sha1 t f) (move : Quiet sha1 kernel f next) :
    Unfiled f next ∨ ∃ id block pp b result, Filing sha1 t f next id block pp b result := by
  cases move with
  | release event rest reqs front gives => exact Or.inl (release_unfiled f reqs f.session.peers rest)
  | expel id c found => exact Or.inl (release_unfiled f _ _ f.queue)
  | expire id c cutoff found => exact Or.inl (release_unfiled f _ _ f.queue)
  | join id rest front =>
    refine Or.inl ⟨rfl, ?_, ?_, ?_, fun _ _ => ?_⟩
    all_goals simp only [onJoined, greet]
  | serve id req rest session front served =>
    have typed := books.custody.typed (.request id req) (by rw [front]; exact List.mem_cons_self ..)
    cases serve_cases geometry books.custody.sound id req session typed served with
    | ignored read same => exact Or.inl ⟨rfl, rfl, rfl, rfl, fun _ _ => rfl⟩
    | sent read same held space inside count => exact Or.inl ⟨rfl, rfl, rfl, rfl, fun _ _ => rfl⟩
  | file id block rest result taken judged hosts front idle took verdict =>
    have outcome := judge_cases sha1 kernel f.session taken judged id block result hosts took verdict
    have came := file_downloaded took verdict
    have whole {pp : PartialPiece} {b : Nat} (fits : Fits f.session.pieces block pp b) :=
      books.balanced.whole books.valid front fits
    obtain ⟨⟨answer, pieces⟩, filed, same⟩ := bind_ok took
    cases same
    have accepted := books.balanced.accepted geometry books.valid front ⟨_, filed⟩
    refine Or.inr ?_
    cases outcome with
    | rejected count piece => exact absurd rfl accepted
    | incomplete count pp b pieces fits decided => exact ⟨id, block, pp, b, _, fits, whole fits, decided, came, rfl⟩
    | failed count pp b pieces piece fits decided => exact ⟨id, block, pp, b, _, fits, whole fits, decided, came, rfl⟩
    | verified count pp b pieces piece written fits decided stored =>
      exact ⟨id, block, pp, b, _, fits, whole fits, decided, came, rfl⟩
  | _ => exact Or.inl ⟨rfl, rfl, rfl, rfl, fun _ _ => rfl⟩

theorem Ask.unfiled (geometry : Geometry t) (valid : Valid t f.session.pieces) {session : Session}
    (ask : Ask f.session session) : Unfiled f { f with session := session } := by
  cases ask with
  | ask id c choice now req pieces found unchoked slot picked =>
    obtain ⟨opened, pp, b, pick⟩ := pickBlock_some geometry valid _ _ _ _ _ _ picked
    exact ⟨rfl, rfl, pick.same_have, pick.same_bytes, pick.got⟩
  | decline id c choice pieces picked =>
    have same := pickBlock_none geometry valid _ _ _ _ _ picked
    subst same
    exact ⟨rfl, rfl, rfl, rfl, fun _ _ => rfl⟩

theorem run_keeps (good : Flow → Prop) (quiet : ∀ f next, good f → Quiet sha1 kernel f next → good next)
    (ask : ∀ f next, good f → Ask f.session next → good { f with session := next })
    {first sys : Sys} {inputs : List Input} (holds : good first.flow)
    (ran : run (step sha1 kernel) first inputs = some sys) : good sys.flow := by
  induction inputs generalizing first with
  | nil =>
    cases ran
    exact holds
  | cons input inputs ih =>
    obtain ⟨middle, moves, rest⟩ := Option.bind_eq_some_iff.mp ran
    refine ih ?_ rest
    rcases step_cases sha1 kernel first middle input moves with quiets | ⟨-, asks, same⟩
    · clear rest moves
      generalize first.flow = start, middle.flow = last at quiets holds ⊢
      induction quiets with
      | refl => exact holds
      | tail _ last ih => exact quiet _ _ ih last
    · rw [same]
      clear same rest moves
      generalize middle.session = last at asks
      induction asks with
      | refl => exact holds
      | @tail middle after _ last ih => exact ask { first.flow with session := middle } after ih last

theorem run_advances (geometry : Geometry t) (good : Flow → Prop)
    (steady : ∀ f next, Books sha1 t f → Books sha1 t next → good f → Unfiled f next → good next)
    (filing : ∀ f next id block pp b result, Books sha1 t f → Books sha1 t next → good f →
      Filing sha1 t f next id block pp b result → good next)
    {first sys : Sys} {inputs : List Input} (books : Books sha1 t first.flow) (holds : good first.flow)
    (ran : run (step sha1 kernel) first inputs = some sys) : good sys.flow := by
  have both := run_keeps (fun f => Books sha1 t f ∧ good f) ?_ ?_ ⟨books, holds⟩ ran
  · exact both.2
  · rintro f next ⟨books, holds⟩ move
    have after := books.quiet geometry move
    rcases move.advance geometry books with calm | ⟨id, block, pp, b, result, filed⟩
    · exact ⟨after, steady f next books after holds calm⟩
    · exact ⟨after, filing f next id block pp b result books after holds filed⟩
  · rintro f next ⟨books, holds⟩ ask
    have after := books.ask geometry ask
    exact ⟨after, steady _ _ books after holds (ask.unfiled geometry books.valid)⟩

end Moves

def weight (w : Nat → Nat → Nat) (filed : List Filed) : Nat :=
  (filed.map (fun entry => w entry.block.pieceIndex (entry.block.offset / kBlockSize))).sum

def spoiled (w : Nat → Nat → Nat) (t : TorrentFile) (filed : List Filed) : Nat :=
  (filed.map (fun entry => if entry.status = .pieceFailed then bulk w t entry.block.pieceIndex else 0)).sum

/-- The books of a run from a state in which the pieces of `start` were held. -/
structure Tally (w : Nat → Nat → Nat) (t : TorrentFile) (start : Finset Nat) (f : Flow) : Prop where
  kept : start ⊆ f.session.pieces.held
  weighed : weight w f.filed =
    (f.session.pieces.held \ start).sum (bulk w t) + spoiled w t f.filed + heap w t f.session.pieces

section Tallies

variable {sha1 : Bytes → Bytes} {kernel : Kernel} {t : TorrentFile} {w : Nat → Nat → Nat} {start : Finset Nat}
  {f next : Flow}

theorem Tally.unfiled (before : Valid t f.session.pieces) (after : Valid t next.session.pieces)
    (tally : Tally w t start f) (steady : Unfiled f next) : Tally w t start next := by
  have count : next.session.pieces.pieceCount = f.session.pieces.pieceCount := by
    rw [after.pieceCount, before.pieceCount]
  have same_held : next.session.pieces.held = f.session.pieces.held := by
    rw [held, held, count, steady.have_]
  have same_heap : heap w t next.session.pieces = heap w t f.session.pieces := by
    rw [heap, heap, count]
    exact Finset.sum_congr rfl (fun index _ => pile_congr w t (steady.got index))
  refine ⟨by rw [same_held]; exact tally.kept, ?_⟩
  rw [same_held, same_heap, steady.filed]
  exact tally.weighed

theorem Filing.held {id : Nat} {block : Block} {pp : PartialPiece} {b : Nat} {result : BlockResult}
    (valid : Valid t f.session.pieces) (after : Valid t next.session.pieces)
    (filing : Filing sha1 t f next id block pp b result) :
    next.session.pieces.held =
      if result.status = .pieceVerified then insert block.pieceIndex f.session.pieces.held
      else f.session.pieces.held := by
  have count : next.session.pieces.pieceCount = f.session.pieces.pieceCount := by
    rw [after.pieceCount, valid.pieceCount]
  have verdict := filing.verdict
  generalize next.session.pieces = pieces at verdict count
  cases verdict with
  | incomplete short => rfl
  | failed full wrong => rfl
  | verified _ full right marked =>
    obtain ⟨-, -, -, bits⟩ := markHave_valid (erase_valid valid block.pieceIndex) block.pieceIndex
      filing.fits.counted filing.fits.wanted (by simp) marked
    rw [if_pos rfl]
    ext index
    rw [Finset.mem_insert, mem_held, mem_held, count, bits, Bool.or_eq_true, decide_eq_true_iff]
    constructor
    · rintro ⟨below, here | before⟩
      · exact Or.inl here
      · exact Or.inr ⟨below, before⟩
    · rintro (here | ⟨below, before⟩)
      · exact ⟨here ▸ filing.fits.counted, Or.inl here⟩
      · exact ⟨below, Or.inr before⟩

theorem Tally.file {id : Nat} {block : Block} {pp : PartialPiece} {b : Nat} {result : BlockResult}
    (geometry : Geometry t) (valid : Valid t f.session.pieces) (after : Valid t next.session.pieces)
    (tally : Tally w t start f) (filing : Filing sha1 t f next id block pp b result) : Tally w t start next := by
  have grown := filing.held valid after
  have stored := filing.verdict.heap geometry valid filing.fits filing.whole (w := w)
  have slot : block.offset / kBlockSize = b := fits_slot filing.fits
  have weighed : weight w next.filed = weight w f.filed + w block.pieceIndex b := by
    rw [filing.filed]
    simp [weight, slot]
  have lost : spoiled w t next.filed = spoiled w t f.filed +
      if result.status = .pieceFailed then bulk w t block.pieceIndex else 0 := by
    rw [filing.filed]
    simp [spoiled]
  have books := tally.weighed
  have fresh : block.pieceIndex ∉ f.session.pieces.held := by
    rw [mem_held, filing.fits.wanted]
    simp
  by_cases passed : result.status = .pieceVerified
  · rw [if_pos passed] at grown
    rw [if_neg (by rw [passed]; decide)] at stored lost
    have outside : block.pieceIndex ∉ start := fun member => fresh (tally.kept member)
    refine ⟨?_, ?_⟩
    · rw [grown]
      exact tally.kept.trans (Finset.subset_insert _ _)
    · have gained : (next.session.pieces.held \ start).sum (bulk w t) =
          bulk w t block.pieceIndex + (f.session.pieces.held \ start).sum (bulk w t) := by
        rw [grown, Finset.insert_sdiff_of_notMem _ outside]
        exact Finset.sum_insert (fun member => fresh (Finset.mem_sdiff.mp member).1)
      omega
  · rw [if_neg passed] at grown
    refine ⟨by rw [grown]; exact tally.kept, ?_⟩
    rw [grown]
    by_cases short : result.status = .incomplete
    · rw [if_pos short] at stored
      rw [if_neg (by rw [short]; decide)] at lost
      omega
    · have failed : result.status = .pieceFailed := by
        have verdict := filing.verdict
        generalize next.session.pieces = pieces at verdict
        cases verdict with
        | incomplete _ => exact absurd rfl short
        | failed _ _ => rfl
        | verified _ _ _ _ => exact absurd rfl passed
      rw [if_neg short] at stored
      rw [if_pos failed] at lost
      omega

theorem begins_tally (w : Nat → Nat → Nat) {first : Sys} (begins : Begins sha1 kernel t first) :
    Tally w t first.session.pieces.held first.flow := by
  have idle := (begins_fresh begins).idle
  obtain ⟨-, -, -, -, unfiled⟩ := begins
  have filed : first.flow.filed = [] := unfiled
  have nothing : heap w t first.flow.session.pieces = 0 := by
    apply Finset.sum_eq_zero
    intro index _
    apply Finset.sum_eq_zero
    intro b _
    have absent : first.flow.session.pieces.got index b = none := by
      rw [got, show first.flow.session.pieces.active.find? index = none from idle index]
      rfl
    rw [absent]
    rfl
  refine ⟨Finset.Subset.refl _, ?_⟩
  have empty : first.flow.session.pieces.held \ first.session.pieces.held = ∅ := Finset.sdiff_self _
  rw [filed, nothing, empty]
  rfl

theorem run_tally (w : Nat → Nat → Nat) {first sys : Sys} {inputs : List Input}
    (begins : Begins sha1 kernel t first) (ran : run (step sha1 kernel) first inputs = some sys) :
    Tally w t first.session.pieces.held sys.flow := by
  have geometry := begins_geometry begins
  refine run_advances geometry (Tally w t first.session.pieces.held) ?_ ?_ (begins_books begins)
    (begins_tally w begins) ran
  · intro f next books after tally steady
    exact tally.unfiled books.valid after.valid steady
  · intro f next id block pp b result books after tally filing
    exact tally.file geometry books.valid after.valid filing

end Tallies

section Counters

variable {sha1 : Bytes → Bytes} {kernel : Kernel} {t : TorrentFile}

theorem recheckAll_counted (geometry : Geometry t) {disk : DiskManager} (rest : List Nat)
    (pieces last : PieceManager) (store read : Store) (counted : Counted t pieces)
    (idle : ∀ index, pieces.active.find? index = none) (distinct : rest.Nodup)
    (fresh : ∀ i ∈ rest, i < pieces.pieceCount ∧ pieces.have_.get i = false)
    (done : recheckAll sha1 kernel disk t rest pieces store = .ok (last, read)) : Counted t last := by
  induction rest generalizing pieces store with
  | nil =>
    cases done
    exact counted
  | cons i rest ih =>
    obtain ⟨absent, others⟩ := List.nodup_cons.mp distinct
    obtain ⟨inside, unset⟩ := fresh i (List.mem_cons_self ..)
    have later : ∀ j ∈ rest, j < pieces.pieceCount ∧ pieces.have_.get j = false :=
      fun j member => fresh j (List.mem_cons_of_mem _ member)
    unfold recheckAll at done
    split at done
    · cases done
    · rename_i data after read_ok
      obtain ⟨checked, one, tail⟩ := bind_ok done
      unfold PieceManager.recheck at one
      split at one
      · obtain ⟨valid, active, -, bits⟩ := markHave_valid counted.valid i inside unset (idle i) one
        refine ih checked after (counted.mark geometry i inside unset (idle i) one) ?_ others ?_ tail
        · intro index
          rw [active]
          exact idle index
        · intro j member
          have different : j ≠ i := fun equal => absent (equal ▸ member)
          refine ⟨?_, ?_⟩
          · rw [valid.pieceCount, ← counted.valid.pieceCount]
            exact (later j member).1
          · rw [bits, decide_eq_false different, Bool.false_or]
            exact (later j member).2
      · cases one
        exact ih pieces after counted idle others later tail

theorem begins_counted {sys : Sys} (begins : Begins sha1 kernel t sys) : Counted t sys.session.pieces := by
  have geometry := begins_geometry begins
  obtain ⟨-, ⟨peerId, listenSock, downloadDir, initialPeers, env, store, created⟩, -⟩ := begins
  unfold create at created
  split at created
  · cases created
  · obtain ⟨peers, -, onward⟩ := bind_ok created
    obtain ⟨⟨pieces, read⟩, checked, same⟩ := bind_ok onward
    rw [← Except.ok.inj same]
    exact recheckAll_counted geometry _ _ pieces _ read create_tidy.counted (fun _ => rfl) List.nodup_range
      (fun i member => ⟨List.mem_range.mp member, Bitfield.get_ofBits _ i⟩) checked

theorem run_counted {first sys : Sys} {inputs : List Input} (geometry : Geometry t)
    (books : Books sha1 t first.flow) (counted : Counted t first.session.pieces)
    (ran : run (step sha1 kernel) first inputs = some sys) : Counted t sys.session.pieces := by
  refine run_advances geometry (fun f => Counted t f.session.pieces) ?_ ?_ books counted ran
  · intro f next _ after counted steady
    exact counted.frame after.valid steady.have_ steady.haveBytes
  · intro f next id block pp b result _ _ counted filing
    exact filing.verdict.counted geometry counted filing.fits

theorem run_downloaded {first sys : Sys} {inputs : List Input} (begins : Begins sha1 kernel t first)
    (ran : run (step sha1 kernel) first inputs = some sys) :
    sys.session.downloaded = weight (blockBytes t) sys.filed % 2 ^ 64 := by
  have geometry := begins_geometry begins
  refine run_advances geometry (fun f => f.session.downloaded = weight (blockBytes t) f.filed % 2 ^ 64) ?_ ?_
    (begins_books begins) ?_ ran
  · intro f next _ _ counted steady
    rw [steady.downloaded, steady.filed]
    exact counted
  · intro f next id block pp b result _ _ counted filing
    have slot : block.offset / kBlockSize = b := fits_slot filing.fits
    have more : weight (blockBytes t) next.filed = weight (blockBytes t) f.filed + block.data.length := by
      rw [filing.filed, filing.whole]
      simp [weight, slot, blockBytes]
    rw [filing.downloaded, more, addU64, counted, Nat.mod_add_mod]
  · obtain ⟨-, ⟨_, _, _, _, _, _, created⟩, -, -, unfiled⟩ := begins
    have filed : first.flow.filed = [] := unfiled
    have none_yet : first.flow.session.downloaded = 0 := by
      unfold create at created
      split at created
      · cases created
      · obtain ⟨peers, -, onward⟩ := bind_ok created
        obtain ⟨⟨pieces, read⟩, -, same⟩ := bind_ok onward
        show first.session.downloaded = 0
        rw [← Except.ok.inj same]
    rw [filed, none_yet]
    rfl

end Counters

def wasted (t : TorrentFile) (filed : List Filed) : Nat :=
  (filed.map (fun entry => if entry.status = .pieceFailed then pieceSize t entry.block.pieceIndex else 0)).sum

def unfinished (t : TorrentFile) (pieces : PieceManager) : Nat :=
  (Finset.range pieces.pieceCount).sum (fun index => (Finset.range (blockCount t index)).sum (fun b =>
    if (pieces.got index b).isSome = true then (requestOf t index b).length else 0))

section Attempts

variable {t : TorrentFile} (index : Nat)

def onlyOf (other _b : Nat) : Nat := if other = index then 1 else 0

theorem weight_onlyOf (filed : List Filed) :
    weight (onlyOf index) filed = filed.countP (fun entry => decide (entry.block.pieceIndex = index)) := by
  induction filed with
  | nil => rfl
  | cons entry rest ih =>
    rw [List.countP_cons, ← ih, Nat.add_comm]
    simp [weight, onlyOf]

theorem bulk_onlyOf (other : Nat) : bulk (onlyOf index) t other =
    if other = index then blockCount t index else 0 := by
  by_cases same : other = index
  · have ones : ∀ b ∈ Finset.range (blockCount t index), onlyOf index index b = 1 := by simp [onlyOf]
    rw [if_pos same, same, bulk, Finset.sum_congr rfl ones, ← Finset.card_eq_sum_ones, Finset.card_range]
  · simp [bulk, onlyOf, same]

theorem spoiled_onlyOf (filed : List Filed) :
    spoiled (onlyOf index) t filed = blockCount t index *
      filed.countP (fun entry => decide (entry.block.pieceIndex = index ∧ entry.status = .pieceFailed)) := by
  induction filed with
  | nil => rfl
  | cons entry rest ih =>
    have tail : spoiled (onlyOf index) t (entry :: rest) =
        (if entry.status = .pieceFailed then bulk (onlyOf index) t entry.block.pieceIndex else 0) +
          spoiled (onlyOf index) t rest := by
      simp [spoiled]
    rw [tail, ih, bulk_onlyOf, List.countP_cons, Nat.mul_add]
    by_cases same : entry.block.pieceIndex = index <;> by_cases failed : entry.status = .pieceFailed <;>
      simp [same, failed, Nat.add_comm]

theorem heap_onlyOf {pieces : PieceManager} (valid : Valid t pieces) (start : Finset Nat) :
    (pieces.held \ start).sum (bulk (onlyOf index) t) + heap (onlyOf index) t pieces ≤ blockCount t index := by
  have gained : (pieces.held \ start).sum (bulk (onlyOf index) t) =
      if index ∈ pieces.held \ start then blockCount t index else 0 := by
    rw [Finset.sum_congr rfl (fun other _ => bulk_onlyOf index other)]
    exact Finset.sum_ite_eq' _ index _
  have piled : ∀ other, pile (onlyOf index) t pieces other =
    if other = index then pile (onlyOf index) t pieces index else 0 := by
    intro other
    by_cases same : other = index
    · rw [if_pos same, same]
    · rw [if_neg same]
      apply Finset.sum_eq_zero
      intro b _
      simp [onlyOf, same]
  have heaped : heap (onlyOf index) t pieces =
      if index ∈ Finset.range pieces.pieceCount then pile (onlyOf index) t pieces index else 0 := by
    rw [heap, Finset.sum_congr rfl (fun other _ => piled other)]
    exact Finset.sum_ite_eq' _ index _
  have most : pile (onlyOf index) t pieces index ≤ blockCount t index := by
    calc
      pile (onlyOf index) t pieces index ≤ (Finset.range (blockCount t index)).sum (fun _ => 1) := by
        apply Finset.sum_le_sum
        intro b _
        by_cases there : (pieces.got index b).isSome = true <;> simp [there, onlyOf]
      _ = blockCount t index := by rw [← Finset.card_eq_sum_ones, Finset.card_range]
  by_cases inside : index ∈ pieces.held \ start
  · have held_bit := ((mem_held _ _).mp (Finset.mem_sdiff.mp inside).1).2
    have idle : pieces.active.find? index = none := by
      cases found : pieces.active.find? index with
      | none => rfl
      | some pp =>
        have wanted := (valid.parts index pp found).2.1
        rw [held_bit] at wanted
        cases wanted
    have empty : pile (onlyOf index) t pieces index = 0 := by
      apply Finset.sum_eq_zero
      intro b _
      rw [got, idle]
      rfl
    rw [gained, if_pos inside, heaped, empty, ite_self]
    exact Nat.le_refl _
  · rw [gained, if_neg inside, Nat.zero_add, heaped]
    split
    · exact most
    · exact Nat.zero_le _

end Attempts

theorem wasted_spoiled (t : TorrentFile) (filed : List Filed) : wasted t filed = spoiled (blockBytes t) t filed := by
  simp only [wasted, spoiled, bulk_bytes]

section Progress

variable {sha1 : Bytes → Bytes} {kernel : Kernel} {t : TorrentFile}

theorem run_accounted {first sys : Sys} {inputs : List Input} (begins : Begins sha1 kernel t first)
    (ran : run (step sha1 kernel) first inputs = some sys) :
    sys.session.pieces.bytesLeft ≤ first.session.pieces.bytesLeft ∧
      weight (blockBytes t) sys.filed = first.session.pieces.bytesLeft - sys.session.pieces.bytesLeft +
        wasted t sys.filed + unfinished t sys.session.pieces := by
  have geometry := begins_geometry begins
  have started := begins_counted begins
  have counted := run_counted geometry (begins_books begins) started ran
  have tally := run_tally (blockBytes t) begins ran
  have before := started.left geometry
  have after := counted.left geometry
  have gained : (sys.session.pieces.held \ first.session.pieces.held).sum (pieceSize t) +
      first.session.pieces.held.sum (pieceSize t) = sys.session.pieces.held.sum (pieceSize t) :=
    Finset.sum_sdiff tally.kept
  have weighed : weight (blockBytes t) sys.filed =
      (sys.session.pieces.held \ first.session.pieces.held).sum (bulk (blockBytes t) t) +
        spoiled (blockBytes t) t sys.filed + heap (blockBytes t) t sys.session.pieces := tally.weighed
  rw [Finset.sum_congr rfl (fun index _ => bulk_bytes t index), ← wasted_spoiled] at weighed
  have same : heap (blockBytes t) t sys.session.pieces = unfinished t sys.session.pieces := rfl
  rw [same] at weighed
  exact ⟨by omega, by omega⟩

theorem run_progress {middle sys : Sys} {inputs : List Input} (geometry : Geometry t)
    (books : Books sha1 t middle.flow)
    (counted : Counted t middle.session.pieces) (ran : run (step sha1 kernel) middle inputs = some sys) :
    sys.session.pieces.bytesLeft ≤ middle.session.pieces.bytesLeft ∧
      weight (blockBytes t) middle.filed ≤ weight (blockBytes t) sys.filed := by
  have later := run_counted geometry books counted ran
  have both : middle.session.pieces.held ⊆ sys.flow.session.pieces.held ∧
      weight (blockBytes t) middle.filed ≤ weight (blockBytes t) sys.flow.filed := by
    refine run_advances geometry (fun f => middle.session.pieces.held ⊆ f.session.pieces.held ∧
      weight (blockBytes t) middle.filed ≤ weight (blockBytes t) f.filed) ?_ ?_ books
      ⟨Finset.Subset.refl _, Nat.le_refl _⟩ ran
    · intro f next before after kept steady
      have same : next.session.pieces.held = f.session.pieces.held := by
        rw [held, held, after.valid.pieceCount, before.valid.pieceCount, steady.have_]
      rw [same, steady.filed]
      exact kept
    · intro f next id block pp b result before after kept filing
      refine ⟨?_, ?_⟩
      · rw [filing.held before.valid after.valid]
        split
        · exact kept.1.trans (Finset.subset_insert _ _)
        · exact kept.1
      · have more : weight (blockBytes t) next.filed = weight (blockBytes t) f.filed +
            weight (blockBytes t) [⟨id, block, result.status⟩] := by
          rw [filing.filed, weight, List.map_append, List.sum_append]
          rfl
        rw [more]
        exact Nat.le_trans kept.2 (Nat.le_add_right _ _)
  have first := counted.left geometry
  have last := later.left geometry
  have more : middle.session.pieces.held.sum (pieceSize t) ≤ sys.session.pieces.held.sum (pieceSize t) :=
    Finset.sum_le_sum_of_subset both.1
  exact ⟨by omega, both.2⟩

end Progress

/-- Between the start of a session and any later moment `bytes_left` goes down by exactly what was
downloaded, apart from the attempts that failed and what pieces in progress hold: no block of
a piece that passes is ever downloaded twice. -/
theorem downloads_accounted (sha1 : Bytes → Bytes) (kernel : Kernel) (t : TorrentFile) (first sys : Sys)
    (inputs : List Input) (begins : Begins sha1 kernel t first)
    (ran : run (step sha1 kernel) first inputs = some sys) :
    sys.session.pieces.bytesLeft ≤ first.session.pieces.bytesLeft ∧
    sys.session.downloaded = (first.session.pieces.bytesLeft - sys.session.pieces.bytesLeft +
      wasted t sys.filed + unfinished t sys.session.pieces) % 2 ^ 64 ∧
    ∀ index, sys.filed.countP (fun entry => decide (entry.block.pieceIndex = index)) ≤
      blockCount t index * (1 + sys.filed.countP (fun entry =>
        decide (entry.block.pieceIndex = index ∧ entry.status = .pieceFailed))) := by
  obtain ⟨less, weighed⟩ := run_accounted begins ran
  refine ⟨less, ?_, ?_⟩
  · rw [run_downloaded begins ran, weighed]
  · intro index
    have counted := run_counted (begins_geometry begins) (begins_books begins) (begins_counted begins) ran
    have counts := (run_tally (onlyOf index) begins ran).weighed
    have bound := heap_onlyOf index counted.valid first.session.pieces.held
    have filed : sys.flow.filed = sys.filed := rfl
    have pieces : sys.flow.session.pieces = sys.session.pieces := rfl
    rw [weight_onlyOf, spoiled_onlyOf, filed, pieces] at counts
    rw [Nat.mul_add, Nat.mul_one]
    omega

/-- The only block came in wrong: one byte was downloaded, and it is still left to download. -/
theorem downloads_accounted_wrong_byte :
    ∃ first sys inputs, Begins spotDigest wholeKernel oneByteWanted first ∧
      run (step spotDigest wholeKernel) first inputs = some sys ∧ wasted oneByteWanted sys.filed = 1 ∧
      sys.session.downloaded = (first.session.pieces.bytesLeft - sys.session.pieces.bytesLeft + 1 +
        unfinished oneByteWanted sys.session.pieces) % 2 ^ 64 := by
  have shown : (rehearse spotDigest oneByteWanted (welcome oneByteWanted (ascii "h") ++
      [arrives 1 (ascii "h") (Wire.Message.bytes (.piece 0 0 [0])), .dispatch (fun _ => [])])).map (fun sys =>
        wasted oneByteWanted sys.filed) = some 1 := by
    decide +kernel
  obtain ⟨sys, ran, lost⟩ := Option.map_eq_some_iff.mp shown
  obtain ⟨first, begins, moves⟩ := rehearse_begins ⟨_, oneByteWanted_accepted⟩ ran
  have accounted := (downloads_accounted spotDigest wholeKernel oneByteWanted first sys _ begins moves).2.1
  rw [lost] at accounted
  exact ⟨first, sys, _, begins, moves, lost, accounted⟩

end TorrentPeer.Session
