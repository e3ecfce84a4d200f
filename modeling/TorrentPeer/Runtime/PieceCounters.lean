import TorrentPeer.Runtime.Custody
import Mathlib.Algebra.Order.BigOperators.Group.Finset
import Mathlib.Algebra.BigOperators.Intervals

/-! The counters of `PieceManager` over every sequence of its calls: pieces found on disk
first, then any mix of picks, blocks, releases and reservations. -/

namespace TorrentPeer.PieceManager

open Splice Torrent Transition

def held (pieces : PieceManager) : Finset Nat :=
  (Finset.range pieces.pieceCount).filter (fun index => pieces.have_.get index = true)

theorem mem_held (pieces : PieceManager) (index : Nat) :
    index ∈ pieces.held ↔ index < pieces.pieceCount ∧ pieces.have_.get index = true := by
  rw [held, Finset.mem_filter, Finset.mem_range]

section Sums

variable {t : TorrentFile} (geometry : Geometry t)

include geometry

theorem pieceSize_sum (count : Nat) (few : count ≤ t.pieces.length) :
    (Finset.range count).sum (pieceSize t) = min (count * t.pieceLength.toNat) t.totalLength := by
  induction count with
  | zero => simp
  | succ count ih =>
    have size := geometry.pieceSize_min count (by omega)
    have start := geometry.start_inside count (by omega)
    rw [Finset.sum_range_succ, ih (by omega), size, Nat.add_mul, Nat.one_mul]
    omega

theorem pieceSize_total : (Finset.range t.pieces.length).sum (pieceSize t) = t.totalLength := by
  rw [pieceSize_sum geometry _ (Nat.le_refl _)]
  exact Nat.min_eq_right geometry.grid.1

theorem held_bytes_le {pieces : PieceManager} (valid : Valid t pieces) :
    pieces.held.sum (pieceSize t) ≤ t.totalLength := by
  rw [← pieceSize_total geometry]
  refine Finset.sum_le_sum_of_subset ?_
  intro index member
  exact Finset.mem_range.mpr (valid.inside index ((mem_held _ _).mp member).1)

end Sums

theorem held_card {t : TorrentFile} {pieces : PieceManager} (valid : Valid t pieces) :
    pieces.held.card = pieces.haveCount := by
  rw [valid.haves, List.countP_eq_length_filter, held, Finset.card, Finset.filter_val]
  show (Multiset.filter _ (List.range pieces.pieceCount : Multiset Nat)).card = _
  rw [Multiset.filter_coe, Multiset.coe_card]
  simp

/-- The two redundant counters agree with the bits. -/
structure Counted (t : TorrentFile) (pieces : PieceManager) : Prop where
  valid : Valid t pieces
  bytes : pieces.haveBytes = pieces.held.sum (pieceSize t)

section Counters

variable {t : TorrentFile} (geometry : Geometry t) {pieces next : PieceManager}

include geometry

theorem Counted.mark (counted : Counted t pieces) (index : Nat) (inside : index < pieces.pieceCount)
    (wanted : pieces.have_.get index = false) (idle : pieces.active.find? index = none)
    (marked : markHave pieces index = .ok next) : Counted t next := by
  obtain ⟨valid, -, -, bits⟩ := markHave_valid counted.valid index inside wanted idle marked
  refine ⟨valid, ?_⟩
  have same : next.pieceCount = pieces.pieceCount := by
    rw [valid.pieceCount, counted.valid.pieceCount]
  have grown : next.held = insert index pieces.held := by
    ext other
    rw [Finset.mem_insert, mem_held, mem_held, same, bits, Bool.or_eq_true, decide_eq_true_iff]
    constructor
    · rintro ⟨below, here | before⟩
      · exact Or.inl here
      · exact Or.inr ⟨below, before⟩
    · rintro (here | ⟨below, before⟩)
      · exact ⟨here ▸ inside, Or.inl here⟩
      · exact ⟨below, Or.inr before⟩
  have fresh : index ∉ pieces.held := by
    rw [mem_held, wanted]
    simp
  have more : next.held.sum (pieceSize t) = pieceSize t index + pieces.held.sum (pieceSize t) := by
    rw [grown]
    exact Finset.sum_insert fresh
  have limit := held_bytes_le geometry valid
  have total := geometry.total_high
  rw [more] at limit ⊢
  obtain ⟨field, -, rest⟩ := bind_ok marked
  cases rest
  dsimp only
  rw [addU64, counted.bytes, counted.valid.torrent, Nat.add_comm (pieceSize t index)]
  refine Nat.mod_eq_of_lt ?_
  rw [kLimit] at total
  omega

omit geometry in
theorem Counted.frame (counted : Counted t pieces) (valid : Valid t next)
    (same : next.have_ = pieces.have_) (bytes : next.haveBytes = pieces.haveBytes) :
    Counted t next := by
  refine ⟨valid, ?_⟩
  have unchanged : next.held = pieces.held := by
    rw [held, held, valid.pieceCount, counted.valid.pieceCount, same]
  rw [unchanged, bytes]
  exact counted.bytes

end Counters

/-- A manager with the calls that are still open to it. -/
structure Progress where
  pieces : PieceManager
  checked : Finset Nat := ∅
  downloading : Bool := false

inductive Call where
  | recheck (index : Nat) (data : Bytes)
  | pickBlock (peerHas : Bitfield) (availability : List Nat) (tag : Nat) (choice : Choice)
  | onBlock (block : Block)
  | release (reqs : List BlockRequest)
  | setOwner (index : Nat) (owner : Option Nat)

/-- As `Session` calls it: each index is rechecked at most once, and before any download. -/
def call (sha1 : Bytes → Bytes) (p : Progress) : Call → Option Progress
  | .recheck index data =>
    if p.downloading = true ∨ index ∈ p.checked ∨ p.pieces.pieceCount ≤ index then none
    else
      match p.pieces.recheck sha1 index data with
      | .error _ => none
      | .ok next => some { p with pieces := next, checked := insert index p.checked }
  | .pickBlock peerHas availability tag choice =>
    some { p with
      pieces := (p.pieces.pickBlock peerHas availability tag choice).2
      downloading := true }
  | .onBlock block =>
    match p.pieces.onBlock sha1 block with
    | .error _ => none
    | .ok (_, next) => some { p with pieces := next, downloading := true }
  | .release reqs => some { p with pieces := p.pieces.release reqs, downloading := true }
  | .setOwner index owner =>
    some { p with pieces := p.pieces.setOwner index owner, downloading := true }

def Called (sha1 : Bytes → Bytes) (t : TorrentFile) : Progress → Prop :=
  Reachable (call sha1) (fun p => p = { pieces := create t })

/-- Before the download nothing is active, and only rechecked pieces are held. -/
structure Tidy (t : TorrentFile) (p : Progress) : Prop where
  counted : Counted t p.pieces
  idle : p.downloading = false → p.pieces.active = Table.empty
  rechecked : p.downloading = false → ∀ index, p.pieces.have_.get index = true → index ∈ p.checked

section Calls

variable {sha1 : Bytes → Bytes} {t : TorrentFile} {p next : Progress}

theorem create_tidy : Tidy t { pieces := create t } := by
  refine ⟨⟨create_valid t, ?_⟩, fun _ => rfl, ?_⟩
  · simp [create, held]
  · intro _ index set
    simp [create] at set

theorem release_counters (pieces : PieceManager) (reqs : List BlockRequest) :
    (pieces.release reqs).have_ = pieces.have_ ∧ (pieces.release reqs).haveBytes = pieces.haveBytes := by
  induction reqs generalizing pieces with
  | nil => exact ⟨rfl, rfl⟩
  | cons req reqs ih => exact ih { pieces with active := pieces.active.modify req.pieceIndex (releaseState req) }

theorem setOwner_valid {pieces : PieceManager} (valid : Valid t pieces) (index : Nat)
    (owner : Option Nat) : Valid t (pieces.setOwner index owner) := by
  refine ⟨valid.torrent, valid.pieceCount, valid.bits, valid.bytes, ?_, valid.haves⟩
  intro other pp found
  simp only [setOwner, Table.find_modify] at found
  split at found
  · obtain ⟨old, located, changed⟩ := Option.map_eq_some_iff.mp found
    obtain ⟨counted, wanted, part⟩ := valid.parts other old located
    rw [← changed]
    exact ⟨counted, wanted, part.data, part.states, part.received, part.unfinished⟩
  · exact valid.parts other pp found

theorem Picked.same_bytes {pieces opened after : PieceManager} {peerHas : Bitfield} {tag : Nat}
    {req : BlockRequest} {pp : PartialPiece} {b : Nat}
    (picked : Picked t pieces opened after peerHas tag req pp b) :
    after.haveBytes = pieces.haveBytes := by
  rw [picked.stored]
  rcases picked.opening with same | ⟨same, -⟩
  · rw [same]
  · rw [same]
    rfl

theorem Verdict.counted (geometry : Geometry t) {pieces after : PieceManager} {block : Block}
    {pp : PartialPiece} {b : Nat} {result : BlockResult} (counted : Counted t pieces)
    (fits : Fits pieces block pp b) (verdict : Verdict sha1 pieces block pp b result after) :
    Counted t after := by
  have valid := verdict.keeps_valid geometry counted.valid fits
  cases verdict with
  | incomplete short => exact counted.frame valid rfl rfl
  | failed full wrong => exact counted.frame valid rfl rfl
  | verified _ full right stored =>
    have opened := erase_valid counted.valid block.pieceIndex
    have erased : Counted t { pieces with active := pieces.active.erase block.pieceIndex } :=
      counted.frame opened rfl rfl
    exact erased.mark geometry block.pieceIndex fits.counted fits.wanted (by simp) stored

theorem call_tidy (geometry : Geometry t) (tidy : Tidy t p) (c : Call)
    (called : call sha1 p c = some next) : Tidy t next := by
  have counted := tidy.counted
  cases c with
  | recheck index data =>
    simp only [call] at called
    split at called
    · cases called
    · rename_i allowed
      simp only [not_or, Bool.not_eq_true] at allowed
      obtain ⟨early, fresh, inside⟩ := allowed
      split at called
      · cases called
      · rename_i after done
        cases called
        have idle := tidy.idle early
        have wanted : p.pieces.have_.get index = false := by
          rw [← Bool.not_eq_true]
          exact fun set => fresh (tidy.rechecked early index set)
        unfold recheck at done
        split at done
        · have alone : p.pieces.active.find? index = none := by
            rw [idle]
            rfl
          obtain ⟨-, active, -, bits⟩ := markHave_valid counted.valid index (by omega) wanted alone done
          refine ⟨counted.mark geometry index (by omega) wanted alone done, ?_, ?_⟩
          · exact fun _ => active.trans idle
          · intro _ other set
            dsimp only at set
            rw [bits, Bool.or_eq_true, decide_eq_true_iff] at set
            rcases set with here | before
            · exact here ▸ Finset.mem_insert_self index p.checked
            · exact Finset.mem_insert_of_mem (tidy.rechecked early other before)
        · cases done
          exact ⟨counted, fun _ => idle,
            fun _ other set => Finset.mem_insert_of_mem (tidy.rechecked early other set)⟩
  | pickBlock peerHas availability tag choice =>
    cases called
    refine ⟨?_, by simp, by simp⟩
    cases picked : p.pieces.pickBlock peerHas availability tag choice with
    | mk answer after =>
      cases answer with
      | none =>
        rw [pickBlock_none geometry counted.valid _ _ _ _ _ picked]
        exact counted
      | some req =>
        obtain ⟨opened, pp, b, took⟩ := pickBlock_some geometry counted.valid _ _ _ _ _ _ picked
        exact counted.frame took.next_valid took.same_have took.same_bytes
  | onBlock block =>
    simp only [call] at called
    split at called
    · cases called
    · rename_i result after filed
      cases called
      refine ⟨?_, by simp, by simp⟩
      rcases onBlock_cases sha1 _ _ _ _ filed with ⟨-, same⟩ | ⟨pp, b, fits, judged⟩
      · rw [same]
        exact counted
      · exact (fileBlock_verdict sha1 _ _ judged).counted geometry counted fits
  | release reqs =>
    cases called
    obtain ⟨same, bytes⟩ := release_counters p.pieces reqs
    exact ⟨counted.frame (release_valid counted.valid reqs) same bytes, by simp, by simp⟩
  | setOwner index owner =>
    cases called
    exact ⟨counted.frame (setOwner_valid counted.valid index owner) rfl rfl, by simp, by simp⟩

theorem called_tidy (geometry : Geometry t) (called : Called sha1 t p) : Tidy t p := by
  refine Reachable.invariant ?_ ?_ called
  · rintro _ rfl
    exact create_tidy
  · exact fun _ _ c tidy moved => call_tidy geometry tidy c moved

theorem onBlock_total {pieces : PieceManager} (valid : Valid t pieces)
    (few : t.pieces.length + 7 < 2 ^ 32) (block : Block) :
    ∃ result after, pieces.onBlock sha1 block = .ok (result, after) := by
  rcases onBlock_split sha1 pieces block with rejected | ⟨pp, b, fits, same⟩
  · exact ⟨_, _, rejected⟩
  · have count := valid.pieceCount
    rw [same]
    exact fileBlock_returns valid fits sha1 (by omega)

end Calls

/-- The counters, the bits and the active pieces of a manager agree. -/
structure Consistent (t : TorrentFile) (pieces : PieceManager) : Prop where
  count : pieces.haveCount = pieces.held.card
  bytes : pieces.haveBytes = pieces.held.sum (pieceSize t)
  fits : pieces.haveBytes ≤ pieces.torrent.totalLength
  left : pieces.bytesLeft = pieces.torrent.totalLength - pieces.haveBytes
  complete : pieces.bytesLeft = 0 ↔ pieces.isComplete = true
  parts : ∀ index pp, pieces.active.find? index = some pp →
    index < pieces.pieceCount ∧ pieces.have_.get index = false ∧
      pp.data.length = pieceSize t index ∧
      pp.states.length = (pieceSize t index + kBlockSize - 1) / kBlockSize ∧
      pp.received = pp.states.count .received ∧ pp.received < pp.states.length

theorem Counted.consistent {t : TorrentFile} (geometry : Geometry t) {pieces : PieceManager}
    (counted : Counted t pieces) (few : t.pieces.length < 2 ^ 32) : Consistent t pieces := by
  have valid := counted.valid
  have card := held_card valid
  have limit := held_bytes_le geometry valid
  have total := geometry.total_high
  have whole : pieces.pieceCount = t.pieces.length := by
    rw [valid.pieceCount, Nat.mod_eq_of_lt few]
  rw [← counted.bytes] at limit
  rw [kLimit] at total
  have left : pieces.bytesLeft = t.totalLength - pieces.haveBytes := by
    rw [bytesLeft, valid.torrent, subU64_le _ _ limit (by omega)]
  refine ⟨card.symm, counted.bytes, by rw [valid.torrent]; exact limit, by rw [valid.torrent]; exact left,
    ?_, ?_⟩
  · rw [left, isComplete, decide_eq_true_iff, ← card]
    have inside : pieces.held ⊆ Finset.range pieces.pieceCount := Finset.filter_subset _ _
    constructor
    · -- a piece that is not held would leave some bytes
      intro none_left
      have everything : pieces.held = Finset.range pieces.pieceCount := by
        refine Finset.Subset.antisymm inside ?_
        intro index member
        by_contra absent
        have below := Finset.mem_range.mp member
        have positive := geometry.pieceSize_positive index (valid.inside index below)
        have grown : pieceSize t index + pieces.held.sum (pieceSize t) ≤
            (Finset.range t.pieces.length).sum (pieceSize t) := by
          have split : (insert index pieces.held).sum (pieceSize t) =
              pieceSize t index + pieces.held.sum (pieceSize t) := Finset.sum_insert absent
          rw [← split]
          refine Finset.sum_le_sum_of_subset (Finset.insert_subset ?_ ?_)
          · exact whole ▸ member
          · exact whole ▸ inside
        rw [pieceSize_total geometry, ← counted.bytes] at grown
        omega
      rw [everything, Finset.card_range]
    · intro full
      have everything : pieces.held = Finset.range pieces.pieceCount :=
        Finset.eq_of_subset_of_card_le inside (by rw [Finset.card_range, full])
      have bytes := counted.bytes
      rw [everything, whole, pieceSize_total geometry] at bytes
      omega
  · intro index pp found
    obtain ⟨below, wanted, part⟩ := valid.parts index pp found
    exact ⟨below, wanted, part.data, part.states, part.received, part.unfinished⟩

/-- Whatever is called, the counters stay consistent, a block that is taken lies inside its
piece, and a rejected one changes nothing. -/
theorem counters_consistent (sha1 : Bytes → Bytes) (data : Bytes) (t : TorrentFile)
    (accepted : parseTorrent sha1 data = .ok t) (few : t.pieces.length + 7 < 2 ^ 32) (p : Progress)
    (called : Called sha1 t p) :
    Consistent t p.pieces ∧
      ∀ block, ∃ result next, p.pieces.onBlock sha1 block = .ok (result, next) ∧
        (result.status = .rejected → next = p.pieces) ∧
        (result.status ≠ .rejected → ∃ pp, p.pieces.active.find? block.pieceIndex = some pp ∧
          block.offset + block.data.length ≤ pp.data.length) := by
  have geometry := accepted_geometry sha1 data t accepted
  have tidy := called_tidy geometry called
  refine ⟨tidy.counted.consistent geometry (by omega), ?_⟩
  intro block
  obtain ⟨result, next, filed⟩ := onBlock_total tidy.counted.valid few block
  refine ⟨result, next, filed, ?_⟩
  rcases onBlock_cases sha1 _ _ _ _ filed with ⟨rejected, same⟩ | ⟨pp, b, fits, judged⟩
  · exact ⟨fun _ => same, fun taken => absurd rejected taken⟩
  · refine ⟨?_, fun _ => ⟨pp, fits.found, fits.inside⟩⟩
    intro rejected
    cases fileBlock_verdict sha1 _ _ judged <;> cases rejected

/-- A block of one byte, asked for and delivered, completes the torrent. -/
theorem counters_consistent_one_byte :
    ∃ p, Called Session.constantDigest Session.oneByte p ∧ p.pieces.isComplete = true ∧
      p.pieces.bytesLeft = 0 := by
  have ran : (run (call Session.constantDigest) { pieces := create Session.oneByte }
      [.pickBlock ⟨1, [128]⟩ [1] 0 ⟨[], 0⟩, .onBlock ⟨0, 0, [5]⟩]).map (fun p => p.pieces.isComplete) =
      some true := by
    decide +kernel
  obtain ⟨p, moved, complete⟩ := Option.map_eq_some_iff.mp ran
  have begins : Called Session.constantDigest Session.oneByte { pieces := create Session.oneByte } :=
    Reachable.start _ rfl
  have called := begins.run moved
  obtain ⟨consistent, -⟩ := counters_consistent Session.constantDigest Session.oneByteInfo
    Session.oneByte Session.oneByte_accepted (by decide) p called
  exact ⟨p, called, complete, consistent.complete.mpr complete⟩

/-- With 2^32 pieces the count is zero: a manager that holds nothing says it is complete,
with every byte still left. -/
theorem counters_wrap :
    ∃ data t p, parseTorrent Session.constantDigest data = .ok t ∧ Called Session.constantDigest t p ∧
      p.pieces.isComplete = true ∧ p.pieces.bytesLeft ≠ 0 := by
  obtain ⟨data, t, accepted, count⟩ := wide_accepted Session.constantDigest
  have geometry := accepted_geometry _ _ _ accepted
  have many := geometry.pieces_bound
  have total := geometry.total_high
  rw [kLimit] at total
  refine ⟨data, t, { pieces := create t }, accepted, Reachable.start _ rfl, ?_, ?_⟩
  · simp [isComplete, create, count]
  · show subU64 t.totalLength 0 ≠ 0
    rw [subU64_le _ _ (Nat.zero_le _) (by omega)]
    omega

end TorrentPeer.PieceManager
