import TorrentPeer.Runtime.Outstanding
import TorrentPeer.Runtime.Assembly

/-! The attempts at a piece, read off the log of filed blocks, and what `PieceManager` and
`BanManager` hold of them. -/

namespace TorrentPeer.Session

open Splice Torrent PeerManager PieceManager

structure Attempts where
  /-- The attempts that failed, oldest first. -/
  failed : List (List Filed)
  current : List Filed

def follow (index : Nat) (attempts : Attempts) (entry : Filed) : Attempts :=
  if entry.block.pieceIndex ≠ index then attempts
  else
    match entry.status with
    | .rejected => attempts
    | .incomplete => { attempts with current := attempts.current ++ [entry] }
    | .pieceFailed => ⟨attempts.failed ++ [attempts.current ++ [entry]], []⟩
    | .pieceVerified => { attempts with current := [] }

def attemptsOf (index : Nat) (filed : List Filed) : Attempts := filed.foldl (follow index) ⟨[], []⟩

def blockIn (attempt : List Filed) (b : Nat) : Option Filed :=
  attempt.find? (fun entry => decide (entry.block.offset / kBlockSize = b))

def mixed (attempt : List Filed) : Bool :=
  attempt.any (fun first => attempt.any (fun second => decide (first.peerId ≠ second.peerId)))

theorem attemptsOf_append (index : Nat) (filed : List Filed) (entry : Filed) :
    attemptsOf index (filed ++ [entry]) = follow index (attemptsOf index filed) entry := by
  rw [attemptsOf, List.foldl_append]
  rfl

theorem attempts_filed (index : Nat) (filed : List Filed) :
    (∀ attempt ∈ (attemptsOf index filed).failed, ∀ entry ∈ attempt, entry ∈ filed) ∧
      ∀ entry ∈ (attemptsOf index filed).current, entry ∈ filed := by
  induction filed using List.reverseRecOn with
  | nil => simp [attemptsOf]
  | append_singleton filed last ih =>
    obtain ⟨failed, current⟩ := ih
    have older : ∀ attempt ∈ (attemptsOf index filed).failed, ∀ entry ∈ attempt,
        entry ∈ filed ++ [last] :=
      fun attempt member entry inside => List.mem_append_left _ (failed attempt member entry inside)
    have newer : ∀ entry ∈ (attemptsOf index filed).current ++ [last], entry ∈ filed ++ [last] := by
      intro entry member
      rcases List.mem_append.mp member with old | new
      · exact List.mem_append_left _ (current entry old)
      · exact List.mem_append_right _ new
    rw [attemptsOf_append, follow]
    split
    · exact ⟨older, fun entry member => newer entry (List.mem_append_left _ member)⟩
    · split
      · exact ⟨older, fun entry member => newer entry (List.mem_append_left _ member)⟩
      · exact ⟨older, newer⟩
      · refine ⟨?_, by simp⟩
        intro attempt member
        rcases List.mem_append.mp member with old | new
        · exact older attempt old
        · rw [List.mem_singleton.mp new]
          exact newer
      · exact ⟨older, by simp⟩

theorem attempts_other (index : Nat) (filed : List Filed) (entry : Filed)
    (other : index ≠ entry.block.pieceIndex) :
    attemptsOf index (filed ++ [entry]) = attemptsOf index filed := by
  rw [attemptsOf_append, follow, if_pos (Ne.symm other)]

theorem blockIn_append (attempt : List Filed) (entry : Filed) (b : Nat) :
    blockIn (attempt ++ [entry]) b =
      (blockIn attempt b).or (if entry.block.offset / kBlockSize = b then some entry else none) := by
  rw [blockIn, List.find?_append, blockIn]
  congr 1
  by_cases here : entry.block.offset / kBlockSize = b
  · simp [here]
  · simp [here]

theorem blockIn_slot {attempt : List Filed} {b : Nat} {entry : Filed}
    (found : blockIn attempt b = some entry) :
    entry ∈ attempt ∧ entry.block.offset / kBlockSize = b :=
  ⟨List.mem_of_find?_eq_some found, by simpa using List.find?_some found⟩

/-- The bytes and senders of a complete attempt, against the log. -/
structure Account (t : TorrentFile) (index : Nat) (attempt : List Filed) (data : Bytes)
    (senders : List Nat) : Prop where
  size : data.length = pieceSize t index
  count : senders.length = blockCount t index
  each : ∀ b < blockCount t index, ∃ entry ∈ attempt, entry.block.pieceIndex = index ∧
    entry.block.offset = b * kBlockSize ∧ senders[b]? = some entry.peerId ∧
    entry.block.data = chunk kBlockSize data b
  all : ∀ entry ∈ attempt, entry.peerId ∈ senders

theorem Account.mixed {t : TorrentFile} {index : Nat} {attempt : List Filed} {data : Bytes}
    {senders : List Nat} (account : Account t index attempt data senders) (positive : 0 < blockCount t index) :
    mixed attempt = true ↔ ∀ first, ¬ ∀ id ∈ senders, id = first := by
  have slots := account.count
  simp only [Session.mixed, List.any_eq_true, decide_eq_true_eq]
  constructor
  · rintro ⟨left, leftMember, right, rightMember, different⟩ first same
    exact different ((same _ (account.all left leftMember)).trans (same _ (account.all right rightMember)).symm)
  · intro several
    obtain ⟨first, firstMember, -, -, firstSent, -⟩ := account.each 0 positive
    have other := several first.peerId
    simp only [not_forall] at other
    obtain ⟨id, member, different⟩ := other
    obtain ⟨b, located⟩ := List.mem_iff_getElem?.mp member
    obtain ⟨bound, -⟩ := List.getElem?_eq_some_iff.mp located
    obtain ⟨second, secondMember, -, -, secondSent, -⟩ := account.each b (by omega)
    rw [located] at secondSent
    refine ⟨first, firstMember, second, secondMember, ?_⟩
    rw [← Option.some.inj secondSent]
    exact Ne.symm different

/-- What is held of the attempt in progress, against the log. -/
structure Tracked (t : TorrentFile) (index : Nat) (pieces : PieceManager) (bans : BanManager)
    (current : List Filed) : Prop where
  blocks : ∀ b, pieces.got index b = (blockIn current b).map (fun entry => entry.block.data)
  names : ∀ b entry, blockIn current b = some entry → bans.senderAt index b = some entry.peerId
  own : ∀ entry ∈ current, entry.block.pieceIndex = index ∧
    entry.block.offset = entry.block.offset / kBlockSize * kBlockSize ∧
    blockIn current (entry.block.offset / kBlockSize) = some entry
  short : ∀ senders, bans.senders.find? index = some senders → senders.length ≤ blockCount t index

theorem Tracked.empty {t : TorrentFile} {index : Nat} {pieces : PieceManager} {bans : BanManager}
    (nothing : ∀ b, pieces.got index b = none) (unsent : bans.senders.find? index = none) :
    Tracked t index pieces bans [] := by
  refine ⟨nothing, ?_, ?_, ?_⟩
  · intro b entry found
    cases found
  · intro entry member
    cases member
  · intro senders found
    rw [unsent] at found
    cases found

theorem Tracked.frame {t : TorrentFile} {index : Nat} {pieces next : PieceManager} {bans after : BanManager}
    {current : List Filed} (tracked : Tracked t index pieces bans current)
    (same : ∀ b, next.got index b = pieces.got index b)
    (sent : after.senders.find? index = bans.senders.find? index) :
    Tracked t index next after current := by
  refine ⟨fun b => (same b).trans (tracked.blocks b), ?_, tracked.own, ?_⟩
  · intro b entry found
    rw [BanManager.senderAt, sent]
    exact tracked.names b entry found
  · rw [sent]
    exact tracked.short

section Filing

variable {t : TorrentFile} {pieces : PieceManager} {bans : BanManager} {current : List Filed}
  {block : Block} {pp : PartialPiece} {b : Nat} (fits : Fits pieces block pp b)
  (tracked : Tracked t block.pieceIndex pieces bans current) (id : Nat) (status : BlockStatus)

include fits

theorem fits_slot : block.offset / kBlockSize = b := by
  rw [fits.offset, Nat.mul_div_cancel b (by decide)]

include tracked

theorem Tracked.append_block (other : Nat) :
    blockIn (current ++ [⟨id, block, status⟩]) other =
      if other = b then some ⟨id, block, status⟩ else blockIn current other := by
  have slot := fits_slot fits
  rw [blockIn_append]
  dsimp only
  by_cases here : other = b
  · have free := tracked.blocks b
    rw [got_found fits.found, gotIn, if_neg fits.unreceived] at free
    rw [here, if_pos rfl, if_pos slot, Option.map_eq_none_iff.mp free.symm, Option.none_or]
  · rw [if_neg here, if_neg (by rw [slot]; exact Ne.symm here), Option.or_none]

theorem Tracked.append_names (other : Nat) (entry : Filed)
    (found : blockIn (current ++ [⟨id, block, status⟩]) other = some entry) :
    (bans.onBlock id block).senderAt block.pieceIndex other = some entry.peerId := by
  rw [tracked.append_block fits] at found
  have slot := fits_slot fits
  by_cases here : other = b
  · rw [if_pos here] at found
    cases found
    rw [here, ← slot]
    exact bans.onBlock_self id block
  · rw [if_neg here] at found
    refine bans.onBlock_keeps id block _ _ _ (tracked.names other entry found) ?_
    rintro ⟨-, same⟩
    exact here (same.trans slot)

theorem Tracked.append_own (entry : Filed) (member : entry ∈ current ++ [⟨id, block, status⟩]) :
    entry.block.pieceIndex = block.pieceIndex ∧
      entry.block.offset = entry.block.offset / kBlockSize * kBlockSize ∧
      blockIn (current ++ [⟨id, block, status⟩]) (entry.block.offset / kBlockSize) = some entry := by
  have slot := fits_slot fits
  rcases List.mem_append.mp member with old | new
  · obtain ⟨index, offset, found⟩ := tracked.own entry old
    refine ⟨index, offset, ?_⟩
    rw [blockIn_append, found, Option.some_or]
  · rw [List.mem_singleton.mp new]
    refine ⟨rfl, ?_, ?_⟩
    · dsimp only
      rw [slot]
      exact fits.offset
    · dsimp only
      rw [tracked.append_block fits, if_pos slot]

theorem Tracked.append_short (valid : Valid t pieces) (senders : List Nat)
    (sent : (bans.onBlock id block).senders.find? block.pieceIndex = some senders) :
    senders.length ≤ blockCount t block.pieceIndex := by
  have slot := fits_slot fits
  have bound := fits.bound
  rw [(valid.parts _ pp fits.found).2.2.states] at bound
  simp only [BanManager.onBlock, Table.find_assign, if_true, Option.some.injEq] at sent
  rw [← sent, BanManager.recordSender_length, slot]
  apply Nat.max_le.mpr
  refine ⟨?_, bound⟩
  cases found : bans.senders.find? block.pieceIndex with
  | none => exact Nat.zero_le _
  | some earlier => exact tracked.short earlier found

variable (valid : Valid t pieces)

include valid

theorem Tracked.grow {next : PieceManager}
    (filed : ∀ other, next.got block.pieceIndex other =
      if other = b then some block.data else pieces.got block.pieceIndex other) :
    Tracked t block.pieceIndex next (bans.onBlock id block) (current ++ [⟨id, block, status⟩]) := by
  refine ⟨?_, tracked.append_names fits id status, tracked.append_own fits id status,
    tracked.append_short fits id valid⟩
  intro other
  rw [filed, tracked.append_block fits]
  split
  · rfl
  · exact tracked.blocks other

/-- A block that completes the piece closes the account of the attempt. -/
theorem Tracked.account (geometry : Geometry t)
    (whole : block.data.length = (requestOf t block.pieceIndex b).length)
    (full : ¬ (filedPiece pp block b).received < (filedPiece pp block b).states.length)
    (senders : List Nat) (sent : (bans.onBlock id block).senders.find? block.pieceIndex = some senders) :
    Account t block.pieceIndex (current ++ [⟨id, block, status⟩]) (filedPiece pp block b).data senders := by
  obtain ⟨-, -, -, size⟩ := filedPiece_facts geometry valid fits
  have named : ∀ other entry, blockIn (current ++ [⟨id, block, status⟩]) other = some entry →
      senders[other]? = some entry.peerId := by
    intro other entry found
    have name := tracked.append_names fits id status other entry found
    rw [BanManager.senderAt, sent] at name
    exact name
  have each : ∀ other < blockCount t block.pieceIndex, ∃ entry,
      blockIn (current ++ [⟨id, block, status⟩]) other = some entry ∧
        entry.block.data = chunk kBlockSize (filedPiece pp block b).data other := by
    intro other slot
    have bytes := filedPiece_chunk valid fits whole geometry full other slot
    rw [tracked.append_block fits]
    by_cases here : other = b
    · rw [if_pos here] at bytes ⊢
      exact ⟨_, rfl, Option.some.inj bytes⟩
    · rw [if_neg here, tracked.blocks other] at bytes
      rw [if_neg here]
      obtain ⟨entry, found, same⟩ := Option.map_eq_some_iff.mp bytes
      exact ⟨entry, found, same⟩
  have most := tracked.append_short fits id valid senders sent
  refine ⟨size, ?_, ?_, ?_⟩
  · by_contra differs
    obtain ⟨entry, found, -⟩ := each senders.length (by omega)
    have located := named _ entry found
    rw [List.getElem?_eq_none (Nat.le_refl _)] at located
    cases located
  · intro other slot
    obtain ⟨entry, found, bytes⟩ := each other slot
    obtain ⟨member, place⟩ := blockIn_slot found
    obtain ⟨index, offset, -⟩ := tracked.append_own fits id status entry member
    rw [place] at offset
    exact ⟨entry, member, index, offset, named other entry found, bytes⟩
  · intro entry member
    obtain ⟨-, -, found⟩ := tracked.append_own fits id status entry member
    exact List.mem_of_getElem? (named _ entry found)

end Filing

def Kept (sha1 : Bytes → Bytes) (t : TorrentFile) (index : Nat) :
    Option Evidence → Option (List Filed) → Prop
  | none, none => True
  | some evidence, some attempt => Account t index attempt evidence.data evidence.senders ∧
      (PieceManager.create t).verify sha1 index evidence.data = false
  | _, _ => False

structure Traced (sha1 : Bytes → Bytes) (t : TorrentFile) (f : Flow) : Prop where
  tracked : ∀ index,
    Tracked t index f.session.pieces f.session.bans (attemptsOf index f.filed).current
  evidence : ∀ index, f.session.pieces.have_.get index = false →
    Kept sha1 t index (f.session.bans.evidence.find? index)
      ((attemptsOf index f.filed).failed.find? mixed)

section Moves

variable {sha1 : Bytes → Bytes} {kernel : Kernel} {t : TorrentFile}

theorem Traced.frame {f next : Flow} (traced : Traced sha1 t f) (filed : next.filed = f.filed)
    (same : ∀ index b, next.session.pieces.got index b = f.session.pieces.got index b)
    (held : next.session.pieces.have_ = f.session.pieces.have_)
    (senders : next.session.bans.senders = f.session.bans.senders)
    (evidence : next.session.bans.evidence = f.session.bans.evidence) : Traced sha1 t next := by
  refine ⟨?_, ?_⟩
  · intro index
    rw [filed]
    exact (traced.tracked index).frame (same index) (by rw [senders])
  · intro index
    rw [filed, held, evidence]
    exact traced.evidence index

/-- A failed attempt becomes evidence if it has several senders and is the first such. -/
theorem Kept.fail {index : Nat} {held : Option Evidence} {failed : List (List Filed)}
    (kept : Kept sha1 t index held (failed.find? mixed)) (attempt : List Filed) :
    (mixed attempt = false → Kept sha1 t index held ((failed ++ [attempt]).find? mixed)) ∧
    (mixed attempt = true → ∀ fresh : Evidence, Account t index attempt fresh.data fresh.senders →
      (PieceManager.create t).verify sha1 index fresh.data = false →
      Kept sha1 t index (held.or (some fresh)) ((failed ++ [attempt]).find? mixed)) := by
  rw [List.find?_append]
  refine ⟨?_, ?_⟩
  · intro alone
    simp only [List.find?_cons, alone, List.find?_nil, Option.or_none]
    exact kept
  · intro several fresh account wrong
    simp only [List.find?_cons, several]
    cases held with
    | none =>
      cases first : failed.find? mixed with
      | none => exact ⟨account, wrong⟩
      | some earlier =>
        rw [first] at kept
        exact kept.elim
    | some old =>
      cases first : failed.find? mixed with
      | none =>
        rw [first] at kept
        exact kept.elim
      | some earlier =>
        rw [first] at kept
        exact kept

theorem Balanced.whole {f : Flow} {id : Nat} {block : Block} {rest : List PeerEvent} {pp : PartialPiece}
    {b : Nat} (valid : Valid t f.session.pieces) (balanced : Balanced f)
    (front : f.queue = .piece id block :: rest) (fits : Fits f.session.pieces block pp b) :
    block.data.length = (requestOf t block.pieceIndex b).length := by
  have formed := requested_formed valid _ (balanced.front id block rest front)
  rw [← fits_slot fits]
  exact congrArg BlockRequest.length formed

section Judging

variable {f : Flow} {judged : Session} {id : Nat} {block : Block} {result : BlockResult}
  {hosts : List Bytes} {rest : List PeerEvent} (valid : Valid t f.session.pieces) (balanced : Balanced f)
  (traced : Traced sha1 t f)
  (front : f.queue = .piece id block :: rest)
  (outcome : Judged sha1 kernel f.session id block result hosts judged)

include valid balanced traced front outcome

theorem Traced.file_tracked (index : Nat) :
    Tracked t index judged.pieces judged.bans
      (attemptsOf index (f.filed ++ [⟨id, block, result.status⟩])).current := by
  have before := traced.tracked index
  by_cases here : index = block.pieceIndex
  · subst here
    rw [attemptsOf_append, follow, if_neg (not_not.mpr rfl)]
    cases outcome with
    | rejected count piece => exact before
    | incomplete count pp b pieces fits verdict =>
      refine before.grow fits id .incomplete valid ?_
      intro other
      rw [verdict.got valid fits (balanced.whole valid front fits), if_pos rfl, if_pos rfl]
    | failed count pp b pieces piece fits verdict =>
      refine Tracked.empty ?_ ?_
      · intro other
        rw [verdict.got valid fits (balanced.whole valid front fits), if_pos rfl]
        rfl
      · obtain ⟨senders, sent, some_sent⟩ := f.session.bans.onBlock_sent id block
        cases verdict
        rw [(BanManager.onPieceFailed_state _ _ senders sent some_sent).2.1, Table.find_erase, if_pos rfl]
    | verified count pp b pieces piece written fits verdict stored =>
      refine Tracked.empty ?_ ?_
      · intro other
        rw [verdict.got valid fits (balanced.whole valid front fits), if_pos rfl]
        rfl
      · cases verdict
        rw [(BanManager.onPieceVerified_state _ _).2.1, Table.find_erase, if_pos rfl]
  · rw [attempts_other index f.filed _ here]
    cases outcome with
    | rejected count piece => exact before
    | incomplete count pp b pieces fits verdict =>
      refine before.frame ?_ (by simp [BanManager.onBlock, here])
      intro other
      rw [verdict.got valid fits (balanced.whole valid front fits), if_neg here]
    | failed count pp b pieces piece fits verdict =>
      refine before.frame ?_ ?_
      · intro other
        rw [verdict.got valid fits (balanced.whole valid front fits), if_neg here]
      · obtain ⟨senders, sent, some_sent⟩ := f.session.bans.onBlock_sent id block
        cases verdict
        rw [(BanManager.onPieceFailed_state _ _ senders sent some_sent).2.1, Table.find_erase, if_neg here]
        simp [BanManager.onBlock, here]
    | verified count pp b pieces piece written fits verdict stored =>
      refine before.frame ?_ ?_
      · intro other
        rw [verdict.got valid fits (balanced.whole valid front fits), if_neg here]
      · cases verdict
        rw [(BanManager.onPieceVerified_state _ _).2.1, Table.find_erase, if_neg here]
        simp [BanManager.onBlock, here]

theorem Traced.file_evidence (geometry : Geometry t) (index : Nat) (wanted : judged.pieces.have_.get index = false) :
    Kept sha1 t index (judged.bans.evidence.find? index)
      ((attemptsOf index (f.filed ++ [⟨id, block, result.status⟩])).failed.find? mixed) := by
  have before := traced.evidence index
  have tracked := traced.tracked index
  by_cases here : index = block.pieceIndex
  · subst here
    rw [attemptsOf_append, follow, if_neg (not_not.mpr rfl)]
    cases outcome with
    | rejected count piece => exact before wanted
    | incomplete count pp b pieces fits verdict => exact before fits.wanted
    | failed count pp b pieces piece fits verdict =>
      obtain ⟨senders, sent, some_sent⟩ := f.session.bans.onBlock_sent id block
      cases verdict with
      | failed full wrong =>
        have account := tracked.account fits id .pieceFailed valid geometry
          (balanced.whole valid front fits) full senders sent
        have several := account.mixed
          (blockCount_bound geometry _ (valid.inside _ fits.counted)).1
        obtain ⟨alone, grows⟩ := (before fits.wanted).fail
          ((attemptsOf block.pieceIndex f.filed).current ++ [⟨id, block, .pieceFailed⟩])
        rcases BanManager.onPieceFailed_cases _ ⟨block.pieceIndex, (filedPiece pp block b).data⟩
            senders sent some_sent with ⟨first, all, same⟩ | ⟨many, same⟩
        · rw [same]
          apply alone
          rw [← Bool.not_eq_true, several]
          exact fun distinct => distinct first all
        · rw [same]
          dsimp only
          rw [Table.find_emplace_or, if_pos rfl]
          refine grows (several.mpr many) ⟨_, senders⟩ account ?_
          rw [← wrong]
          exact verify_congr sha1 valid.torrent.symm _ _
    | verified count pp b pieces piece written fits verdict stored =>
      cases verdict with
      | verified _ full right marked =>
        obtain ⟨-, -, -, bits⟩ := markHave_valid (erase_valid valid block.pieceIndex)
          block.pieceIndex fits.counted fits.wanted (by simp) marked
        rw [bits, decide_eq_true rfl, Bool.true_or] at wanted
        cases wanted
  · rw [attempts_other index f.filed _ here]
    cases outcome with
    | rejected count piece => exact before wanted
    | incomplete count pp b pieces fits verdict =>
      cases verdict
      exact before wanted
    | failed count pp b pieces piece fits verdict =>
      obtain ⟨senders, sent, some_sent⟩ := f.session.bans.onBlock_sent id block
      cases verdict
      rw [(BanManager.onPieceFailed_state _ _ senders sent some_sent).2.2 index here]
      exact before wanted
    | verified count pp b pieces piece written fits verdict stored =>
      cases verdict with
      | verified _ full right marked =>
        obtain ⟨-, -, -, bits⟩ := markHave_valid (erase_valid valid block.pieceIndex)
          block.pieceIndex fits.counted fits.wanted (by simp) marked
        rw [bits, decide_eq_false here, Bool.false_or] at wanted
        rw [(BanManager.onPieceVerified_state _ _).2.2, if_neg here]
        exact before wanted

end Judging

/-- Everything the books of a session say, at any point of a round. -/
structure Books (sha1 : Bytes → Bytes) (t : TorrentFile) (f : Flow) : Prop where
  custody : Custody sha1 t f
  balanced : Balanced f
  traced : Traced sha1 t f

theorem Books.valid {f : Flow} (books : Books sha1 t f) : Valid t f.session.pieces :=
  books.custody.sound.valid

theorem Books.quiet (geometry : Geometry t) {f next : Flow} (books : Books sha1 t f)
    (move : Quiet sha1 kernel f next) : Books sha1 t next := by
  refine ⟨books.custody.quiet geometry move, books.balanced.quiet geometry books.custody move, ?_⟩
  have traced := books.traced
  cases move with
  | build order => exact traced.frame rfl (fun _ _ => rfl) rfl rfl rfl
  | round order revents env idle => exact traced.frame rfl (fun _ _ => rfl) rfl rfl rfl
  | dial env fresh => exact traced.frame rfl (fun _ _ => rfl) rfl rfl rfl
  | complete => exact traced.frame rfl (fun _ _ => rfl) rfl rfl rfl
  | convict host hosts listed => exact traced.frame rfl (fun _ _ => rfl) rfl rfl rfl
  | release event rest reqs front gives =>
    exact traced.frame rfl (got_release _ _) (release_have _ _) rfl rfl
  | expel id c found => exact traced.frame rfl (got_release _ _) (release_have _ _) rfl rfl
  | expire id c cutoff found => exact traced.frame rfl (got_release _ _) (release_have _ _) rfl rfl
  | join id rest front =>
    refine traced.frame rfl (fun _ _ => rfl) rfl ?_ ?_
    all_goals
      dsimp only [onJoined, greet]
      split <;> rfl
  | serve id req rest session front served =>
    cases serve_cases geometry books.custody.sound id req session
        (books.custody.typed _ (by simp [front])) served with
    | ignored read same => exact traced.frame rfl (fun _ _ => rfl) rfl rfl rfl
    | sent read same held space inside count => exact traced.frame rfl (fun _ _ => rfl) rfl rfl rfl
  | file id block rest result taken judged hosts front idle took verdict =>
    have outcome := judge_cases sha1 kernel f.session taken judged id block result hosts took verdict
    exact ⟨traced.file_tracked books.valid books.balanced front outcome,
      traced.file_evidence books.valid books.balanced front outcome geometry⟩

theorem Books.ask (geometry : Geometry t) {f : Flow} {next : Session} (books : Books sha1 t f)
    (ask : Ask f.session next) : Books sha1 t { f with session := next } := by
  refine ⟨books.custody.ask geometry ask, books.balanced.ask geometry books.custody ask, ?_⟩
  cases ask with
  | ask id c choice now req pieces found unchoked slot picked =>
    obtain ⟨opened, pp, b, pick⟩ := pickBlock_some geometry books.valid _ _ _ _ _ _ picked
    exact books.traced.frame rfl pick.got pick.same_have rfl rfl
  | decline id c choice pieces picked =>
    have same := pickBlock_none geometry books.valid _ _ _ _ _ picked
    subst same
    exact books.traced.frame rfl (fun _ _ => rfl) rfl rfl rfl

theorem begins_books {sys : Sys} (begins : Begins sha1 kernel t sys) : Books sha1 t sys.flow := by
  refine ⟨begins_custody begins, begins_balanced begins, ?_⟩
  have fresh := begins_fresh begins
  obtain ⟨-, -, -, -, unfiled⟩ := begins
  have filed : sys.flow.filed = [] := unfiled
  have bans : sys.flow.session.bans = BanManager.create := fresh.bans
  refine ⟨?_, ?_⟩
  · intro index
    rw [filed]
    refine Tracked.empty ?_ (by rw [bans]; rfl)
    intro b
    have idle : sys.flow.session.pieces.active.find? index = none := fresh.idle index
    rw [got, idle]
    rfl
  · intro index _
    rw [filed, bans]
    trivial

theorem reached_books {sys : Sys} (reached : Reached sha1 kernel t sys) : Books sha1 t sys.flow := by
  have geometry := reached_geometry reached
  exact reached_invariant (Books sha1 t) (fun _ begins => begins_books begins)
    (fun _ _ books move => books.quiet geometry move) (fun _ _ books ask => books.ask geometry ask) reached

end Moves

end TorrentPeer.Session
