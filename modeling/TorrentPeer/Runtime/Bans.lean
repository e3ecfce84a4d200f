import TorrentPeer.Metainfo.Geometry
import TorrentPeer.Lib.Table

/-! `BanManager`: who sent which block, and the hosts to ban after a verdict. -/

namespace TorrentPeer

open Splice

structure Evidence where
  data : Bytes
  senders : List Nat
  deriving DecidableEq, Repr

structure BanManager where
  hosts : Table Nat Bytes
  senders : Table Nat (List Nat)
  evidence : Table Nat Evidence
  retryOwner : Table Nat Nat

namespace BanManager

def create : BanManager := ⟨Table.empty, Table.empty, Table.empty, Table.empty⟩

def onJoin (bans : BanManager) (peerId : Nat) (host : Bytes) : BanManager :=
  { bans with hosts := bans.hosts.assign peerId host }

def recordSender (senders : List Nat) (b peerId : Nat) : List Nat :=
  (senders ++ List.replicate (b + 1 - senders.length) 0).set b peerId

def onBlock (bans : BanManager) (peerId : Nat) (block : Block) : BanManager :=
  let senders := (bans.senders.find? block.pieceIndex).getD []
  { bans with
    senders := bans.senders.assign block.pieceIndex
      (recordSender senders (block.offset / kBlockSize) peerId) }

def onPieceFailed (bans : BanManager) (piece : CompletedPiece) : List Bytes × BanManager :=
  let bans := { bans with retryOwner := bans.retryOwner.erase piece.index }
  match bans.senders.find? piece.index with
  | none => ([], bans)
  | some [] => ([], bans)
  | some (first :: rest) =>
    let bans := { bans with senders := bans.senders.erase piece.index }
    if ∀ id ∈ first :: rest, id = first then
      match bans.hosts.find? first with
      | none => ([], bans)
      | some host => ([host], bans)
    else
      -- emplace leaves an earlier attempt in place
      ([], { bans with
        evidence := bans.evidence.emplace piece.index ⟨piece.data, first :: rest⟩ })

def sameBlock (evidence : Evidence) (piece : CompletedPiece) (b : Nat) : Bool :=
  let offset := b * kBlockSize
  let length := min kBlockSize (subU64 piece.data.length offset)
  decide (slice evidence.data offset length = slice piece.data offset length)

def judgeBlock (bans : BanManager) (evidence : Evidence) (piece : CompletedPiece)
    (listed : List Bytes) (b : Nat) : List Bytes :=
  if sameBlock evidence piece b = true then listed
  else
    match bans.hosts.find? (evidence.senders.getD b 0) with
    | none => listed
    | some host => if host ∈ listed then listed else listed ++ [host]

def onPieceVerified (bans : BanManager) (piece : CompletedPiece) : List Bytes × BanManager :=
  let bans := { bans with
    senders := bans.senders.erase piece.index
    retryOwner := bans.retryOwner.erase piece.index }
  match bans.evidence.find? piece.index with
  | none => ([], bans)
  | some evidence =>
    ((List.range evidence.senders.length).foldl (judgeBlock bans evidence piece) [],
      { bans with evidence := bans.evidence.erase piece.index })

def setRetryOwner (bans : BanManager) (index peerId : Nat) : BanManager :=
  { bans with retryOwner := bans.retryOwner.assign index peerId }

def releaseRetries (bans : BanManager) (peerId : Nat) : List Nat × BanManager :=
  let released := bans.retryOwner.keys.filter (fun index => bans.retryOwner.find? index = some peerId)
  (released, { bans with retryOwner := released.foldl Table.erase bans.retryOwner })

section Senders

def senderAt (bans : BanManager) (index b : Nat) : Option Nat :=
  (bans.senders.find? index).bind (fun senders => senders[b]?)

theorem recordSender_length (senders : List Nat) (b peerId : Nat) :
    (recordSender senders b peerId).length = max senders.length (b + 1) := by
  simp only [recordSender, List.length_set, List.length_append, List.length_replicate]
  omega

theorem recordSender_self (senders : List Nat) (b peerId : Nat) :
    (recordSender senders b peerId)[b]? = some peerId := by
  apply List.getElem?_set_self
  rw [List.length_append, List.length_replicate]
  omega

theorem recordSender_other (senders : List Nat) (b peerId other sender : Nat) (different : other ≠ b)
    (sent : senders[other]? = some sender) :
    (recordSender senders b peerId)[other]? = some sender := by
  obtain ⟨bound, -⟩ := List.getElem?_eq_some_iff.mp sent
  rw [recordSender, List.getElem?_set_ne (Ne.symm different), List.getElem?_append_left bound, sent]

variable (bans : BanManager) (peerId : Nat) (block : Block)

theorem onBlock_self :
    (bans.onBlock peerId block).senderAt block.pieceIndex (block.offset / kBlockSize) = some peerId := by
  simp only [senderAt, onBlock, Table.find_assign, if_true, Option.bind_some]
  exact recordSender_self _ _ _

theorem onBlock_keeps (index b sender : Nat) (sent : bans.senderAt index b = some sender)
    (elsewhere : ¬ (index = block.pieceIndex ∧ b = block.offset / kBlockSize)) :
    (bans.onBlock peerId block).senderAt index b = some sender := by
  simp only [senderAt, onBlock, Table.find_assign] at sent ⊢
  by_cases here : index = block.pieceIndex
  · obtain ⟨senders, found, located⟩ := Option.bind_eq_some_iff.mp sent
    rw [if_pos here, Option.bind_some, ← here, found, Option.getD_some]
    exact recordSender_other _ _ _ _ _ (fun same => elsewhere ⟨here, same⟩) located
  · rw [if_neg here]
    exact sent

theorem onBlock_sent : ∃ senders, (bans.onBlock peerId block).senders.find? block.pieceIndex = some senders ∧
    senders ≠ [] := by
  refine ⟨_, by rw [onBlock, Table.find_assign, if_pos rfl], ?_⟩
  apply List.ne_nil_of_length_pos
  rw [recordSender_length]
  exact Nat.lt_of_lt_of_le (Nat.succ_pos _) (Nat.le_max_right _ _)

end Senders

section Verdicts

/-- A failed piece bans its only sender, or becomes evidence if there is none yet. -/
theorem onPieceFailed_cases (bans : BanManager) (piece : CompletedPiece) (senders : List Nat)
    (sent : bans.senders.find? piece.index = some senders) (some_sent : senders ≠ []) :
    (∃ first, (∀ id ∈ senders, id = first) ∧ bans.onPieceFailed piece =
      ((bans.hosts.find? first).toList, { bans with
        senders := bans.senders.erase piece.index
        retryOwner := bans.retryOwner.erase piece.index })) ∨
    (∀ first, ¬ ∀ id ∈ senders, id = first) ∧ bans.onPieceFailed piece =
      ([], { bans with
        senders := bans.senders.erase piece.index
        evidence := bans.evidence.emplace piece.index ⟨piece.data, senders⟩
        retryOwner := bans.retryOwner.erase piece.index }) := by
  cases senders with
  | nil => exact absurd rfl some_sent
  | cons first rest =>
    simp only [onPieceFailed, sent]
    by_cases alone : ∀ id ∈ first :: rest, id = first
    · refine Or.inl ⟨first, alone, ?_⟩
      rw [if_pos alone]
      cases bans.hosts.find? first <;> rfl
    · refine Or.inr ⟨?_, by rw [if_neg alone]⟩
      intro other all
      apply alone
      intro id member
      rw [all id member, all first (by simp)]

theorem onPieceFailed_state (bans : BanManager) (piece : CompletedPiece) (senders : List Nat)
    (sent : bans.senders.find? piece.index = some senders) (some_sent : senders ≠ []) :
    (bans.onPieceFailed piece).2.hosts = bans.hosts ∧
      (bans.onPieceFailed piece).2.senders = bans.senders.erase piece.index ∧
      ∀ index, index ≠ piece.index →
        (bans.onPieceFailed piece).2.evidence.find? index = bans.evidence.find? index := by
  rcases onPieceFailed_cases bans piece senders sent some_sent with ⟨first, -, same⟩ | ⟨-, same⟩
  · rw [same]
    exact ⟨rfl, rfl, fun _ _ => rfl⟩
  · rw [same]
    refine ⟨rfl, rfl, ?_⟩
    intro index other
    dsimp only
    rw [Table.find_emplace_or, if_neg other]

theorem sameBlock_chunk (evidence : Evidence) (piece : CompletedPiece) (b : Nat)
    (same : evidence.data.length = piece.data.length) (inside : b * kBlockSize ≤ piece.data.length)
    (small : piece.data.length < 2 ^ 64) :
    sameBlock evidence piece b =
      decide (chunk kBlockSize evidence.data b = chunk kBlockSize piece.data b) := by
  simp only [sameBlock, chunk, same, Torrent.subU64_le _ _ inside small]

variable (bans : BanManager) (evidence : Evidence) (piece : CompletedPiece)

/-- The comparison loop lists exactly the hosts that sent a block which differs. -/
theorem judgeBlocks_mem (blocks : List Nat) (listed : List Bytes) (host : Bytes) :
    host ∈ blocks.foldl (judgeBlock bans evidence piece) listed ↔
      host ∈ listed ∨ ∃ b ∈ blocks, sameBlock evidence piece b = false ∧
        bans.hosts.find? (evidence.senders.getD b 0) = some host := by
  induction blocks generalizing listed with
  | nil => simp
  | cons b blocks ih =>
    have first : host ∈ judgeBlock bans evidence piece listed b ↔
        host ∈ listed ∨ sameBlock evidence piece b = false ∧
          bans.hosts.find? (evidence.senders.getD b 0) = some host := by
      unfold judgeBlock
      cases sameBlock evidence piece b with
      | true => simp
      | false =>
        cases bans.hosts.find? (evidence.senders.getD b 0) with
        | none => simp
        | some other =>
          by_cases present : other ∈ listed
          · simp only [Bool.false_eq_true, if_false, present, if_true, true_and, Option.some.injEq]
            exact ⟨Or.inl, fun either => either.elim id (fun same => same ▸ present)⟩
          · simp [present, eq_comm]
    rw [List.foldl_cons, ih, first]
    simp only [List.exists_mem_cons_iff, or_assoc]

theorem judgeBlocks_nodup (blocks : List Nat) (listed : List Bytes) (distinct : listed.Nodup) :
    (blocks.foldl (judgeBlock bans evidence piece) listed).Nodup := by
  induction blocks generalizing listed with
  | nil => exact distinct
  | cons b blocks ih =>
    apply ih
    unfold judgeBlock
    split
    · exact distinct
    · split
      · exact distinct
      · split
        · exact distinct
        · rename_i absent
          exact List.nodup_append.mpr ⟨distinct, by simp, by
            intro old member new last
            rw [List.mem_singleton.mp last]
            exact fun same => absent (same ▸ member)⟩

theorem onPieceVerified_state :
    (bans.onPieceVerified piece).2.hosts = bans.hosts ∧
      (bans.onPieceVerified piece).2.senders = bans.senders.erase piece.index ∧
      ∀ index, (bans.onPieceVerified piece).2.evidence.find? index =
        if index = piece.index then none else bans.evidence.find? index := by
  unfold onPieceVerified
  dsimp only
  split
  · rename_i absent
    refine ⟨rfl, rfl, ?_⟩
    intro index
    split
    · rename_i same
      rw [same]
      exact absent
    · rfl
  · refine ⟨rfl, rfl, ?_⟩
    intro index
    exact Table.find_erase _ _ _

end Verdicts

end BanManager

end TorrentPeer
