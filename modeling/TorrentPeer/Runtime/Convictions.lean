import TorrentPeer.Runtime.Identity

/-! What a verdict on a piece says about its senders: the evidence is exact, and whoever is
banned has sent a wrong block. -/

namespace TorrentPeer.Session

open Splice Torrent PeerManager PieceManager Wire

section Differences

variable {t : TorrentFile} {index : Nat}

theorem block_inside (b : Nat) : b < blockCount t index ↔ b * kBlockSize < pieceSize t index := by
  rw [blockCount, kBlockSize]
  omega

theorem Account.differs {attempt : List Filed} {data other : Bytes} {senders : List Nat}
    (account : Account t index attempt data senders) (size : other.length = pieceSize t index)
    (different : data ≠ other) :
    ∃ b < blockCount t index, chunk kBlockSize data b ≠ chunk kBlockSize other b := by
  by_contra agree
  apply different
  refine chunks_ext kBlockSize (by decide) data other (account.size.trans size.symm) ?_
  intro b inside
  rw [account.size, ← block_inside] at inside
  by_contra differs
  exact agree ⟨b, inside, differs⟩

end Differences

section Evidence

variable {sha1 : Bytes → Bytes} {t : TorrentFile} {f : Flow}

theorem Kept.attempt {index : Nat} {evidence : Evidence} {first : Option (List Filed)}
    (kept : Kept sha1 t index (some evidence) first) :
    ∃ attempt, first = some attempt ∧ Account t index attempt evidence.data evidence.senders ∧
      (PieceManager.create t).verify sha1 index evidence.data = false := by
  cases first with
  | none => exact kept.elim
  | some attempt => exact ⟨attempt, rfl, kept⟩

theorem sameBlock_false (evidence : Evidence) (piece : CompletedPiece) (geometry : Geometry t)
    {attempt : List Filed} (inside : piece.index < t.pieces.length)
    (account : Account t piece.index attempt evidence.data evidence.senders)
    (size : piece.data.length = pieceSize t piece.index) (b : Nat)
    (slot : b < evidence.senders.length) :
    BanManager.sameBlock evidence piece b = false ↔
      chunk kBlockSize evidence.data b ≠ chunk kBlockSize piece.data b := by
  rw [account.count, block_inside] at slot
  have high := geometry.pieceSize_le piece.index inside
  have cap := geometry.pieceLength_cap
  rw [BanManager.sameBlock_chunk evidence piece b (account.size.trans size.symm) (by omega) (by omega),
    decide_eq_false_iff_not]

theorem onBlock_verified (geometry : Geometry t) {pieces next : PieceManager} (valid : Valid t pieces)
    (block : Block) (piece : CompletedPiece)
    (filed : pieces.onBlock sha1 block = .ok (⟨.pieceVerified, piece⟩, next)) :
    piece.index < t.pieces.length ∧ pieces.have_.get piece.index = false ∧
      piece.data.length = pieceSize t piece.index ∧
      (PieceManager.create t).verify sha1 piece.index piece.data = true := by
  rcases onBlock_cases sha1 pieces next block _ filed with ⟨refused, -⟩ | ⟨pp, b, fits, accepted⟩
  · cases refused
  · obtain ⟨-, -, -, size⟩ := filedPiece_facts geometry valid fits
    cases fileBlock_verdict sha1 _ next accepted with
    | verified _ full right stored =>
      refine ⟨valid.inside _ fits.counted, fits.wanted, size, ?_⟩
      rw [← right]
      exact verify_congr sha1 valid.torrent.symm _ _

theorem onPieceVerified_list (bans : BanManager) (piece : CompletedPiece) (evidence : Evidence)
    (held : bans.evidence.find? piece.index = some evidence) :
    (bans.onPieceVerified piece).1.Nodup ∧
      ∀ host, host ∈ (bans.onPieceVerified piece).1 ↔ ∃ b < evidence.senders.length,
        BanManager.sameBlock evidence piece b = false ∧
          bans.hosts.find? (evidence.senders.getD b 0) = some host := by
  simp only [BanManager.onPieceVerified, held]
  refine ⟨BanManager.judgeBlocks_nodup _ _ _ _ _ List.nodup_nil, ?_⟩
  intro host
  rw [BanManager.judgeBlocks_mem]
  simp

end Evidence

/-- When a piece with evidence verifies, the evidence is its first failed attempt with several
senders, each block of it is on file under the peer that delivered it, and the hosts returned
are exactly those whose block differs; there is at least one. -/
theorem evidence_exact (sha1 : Bytes → Bytes) (kernel : Kernel) (t : TorrentFile) (sys : Sys)
    (reached : Reached sha1 kernel t sys) (few : sys.session.peers.promoted < 2 ^ 32)
    (id : Nat) (block : Block) (piece : CompletedPiece) (next : PieceManager)
    (filed : sys.session.pieces.onBlock sha1 block = .ok (⟨.pieceVerified, piece⟩, next))
    (evidence : Evidence)
    (held : (sys.session.bans.onBlock id block).evidence.find? piece.index = some evidence) :
    (∃ attempt, (attemptsOf piece.index sys.filed).failed.find? mixed = some attempt ∧
      ∀ b < evidence.senders.length, ∃ entry ∈ attempt, ∃ delivery ∈ sys.deliveries,
        entry.block.pieceIndex = piece.index ∧ entry.block.offset = b * kBlockSize ∧
        entry.block.data = chunk kBlockSize evidence.data b ∧
        evidence.senders[b]? = some entry.peerId ∧
        delivery.block = entry.block ∧ delivery.conn.id = entry.peerId ∧
        answerOf entry.block ∈ requestsOf delivery.conn.pending ∧
        sys.session.bans.hosts.find? entry.peerId = some delivery.conn.peer.host) ∧
    evidence.data.length = piece.data.length ∧
    evidence.senders.length = (piece.data.length + kBlockSize - 1) / kBlockSize ∧
    ((sys.session.bans.onBlock id block).onPieceVerified piece).1.Nodup ∧
    (∀ host, host ∈ ((sys.session.bans.onBlock id block).onPieceVerified piece).1 ↔
      ∃ b sender, evidence.senders[b]? = some sender ∧
        sys.session.bans.hosts.find? sender = some host ∧
        chunk kBlockSize evidence.data b ≠ chunk kBlockSize piece.data b) ∧
    ((sys.session.bans.onBlock id block).onPieceVerified piece).1 ≠ [] := by
  have geometry := reached_geometry reached
  obtain ⟨books, named⟩ := reached_record reached
  have names := named few
  obtain ⟨inside, wanted, size, right⟩ := onBlock_verified geometry books.valid block piece filed
  have kept := books.traced.evidence piece.index wanted
  have same : sys.flow.session.bans.evidence.find? piece.index = some evidence := held
  rw [same] at kept
  obtain ⟨attempt, first, account, wrong⟩ := kept.attempt
  obtain ⟨distinct, listed⟩ := onPieceVerified_list _ piece evidence held
  have slots := account.count
  have sent : ∀ b < evidence.senders.length, ∃ entry ∈ attempt, ∃ delivery ∈ sys.deliveries,
      entry.block.pieceIndex = piece.index ∧ entry.block.offset = b * kBlockSize ∧
        entry.block.data = chunk kBlockSize evidence.data b ∧
        evidence.senders[b]? = some entry.peerId ∧
        delivery.block = entry.block ∧ delivery.conn.id = entry.peerId ∧
        answerOf entry.block ∈ requestsOf delivery.conn.pending ∧
        sys.session.bans.hosts.find? entry.peerId = some delivery.conn.peer.host := by
    intro b slot
    obtain ⟨entry, member, index, offset, sender, bytes⟩ := account.each b (by omega)
    have logged := (attempts_filed piece.index sys.filed).1 attempt (List.mem_of_find?_eq_some first)
      entry member
    obtain ⟨delivery, came, arrived, name, asked, host⟩ := names.filed entry logged
    exact ⟨entry, member, delivery, came, index, offset, bytes, sender, arrived, name, asked, host⟩
  have exact : ∀ host, host ∈ ((sys.session.bans.onBlock id block).onPieceVerified piece).1 ↔
      ∃ b sender, evidence.senders[b]? = some sender ∧ sys.session.bans.hosts.find? sender = some host ∧
        chunk kBlockSize evidence.data b ≠ chunk kBlockSize piece.data b := by
    intro host
    rw [listed]
    constructor
    · rintro ⟨b, slot, differs, found⟩
      rw [sameBlock_false evidence piece geometry inside account size b slot] at differs
      rw [List.getD_eq_getElem?_getD, List.getElem?_eq_getElem slot, Option.getD_some] at found
      exact ⟨b, _, List.getElem?_eq_getElem slot, found, differs⟩
    · rintro ⟨b, sender, located, found, differs⟩
      obtain ⟨slot, -⟩ := List.getElem?_eq_some_iff.mp located
      refine ⟨b, slot, (sameBlock_false evidence piece geometry inside account size b slot).mpr differs, ?_⟩
      rw [List.getD_eq_getElem?_getD, located, Option.getD_some]
      exact found
  refine ⟨⟨attempt, first, sent⟩, account.size.trans size.symm, ?_, distinct, exact, ?_⟩
  · rw [slots, size]
    rfl
  · -- a failing and a passing copy differ in some block, and its sender is on file
    have different : evidence.data ≠ piece.data := by
      intro equal
      rw [equal, right] at wrong
      cases wrong
    obtain ⟨b, slot, differs⟩ := account.differs size different
    obtain ⟨entry, -, delivery, -, -, -, -, sender, -, -, -, host⟩ := sent b (by omega)
    exact List.ne_nil_of_mem ((exact _).mpr ⟨b, _, sender, host, differs⟩)

section Example

def hears (place fd : Nat) (chunk : Bytes) : Input :=
  .poll [0, 1] (fun i => if i = place then pollIn else 0)
    { quietEnv with
      recv := fun _ => .data chunk
      accepts := [⟨fd, [UInt8.ofNat fd], 1⟩]
      order := [0, 1] }

def handOver : Input := .dispatch (fun _ => [])

def meet : List Input :=
  let shake := buildHandshake twoBlocks (List.replicate 20 8)
  hears 0 5 [] :: roundEnd ++ [hears 1 5 shake, handOver] ++ roundEnd ++
    hears 0 6 [] :: roundEnd ++ [hears 1 6 shake, handOver] ++ roundEnd ++
    [hears 2 6 [0, 0, 0, 2, 5, 128]] ++ roundEnd ++ [hears 1 5 [0, 0, 0, 2, 5, 128]] ++ roundEnd

/-- The first peer sends the first block, starting with the given byte, and the second peer
the last one; each chokes right after its block. The last block is still to be dispatched. -/
def attempt (first : UInt8) : List Input :=
  [hears 1 5 [0, 0, 0, 1, 1], handOver] ++ roundEnd ++
    [hears 1 5 ([0, 0, 64, 9, 7, 0, 0, 0, 0, 0, 0, 0, 0] ++ first :: List.replicate 16370 0)] ++ roundEnd ++
    [hears 1 5 (List.replicate 13 0 ++ [0, 0, 0, 1, 0]), handOver, handOver] ++ roundEnd ++
    [hears 2 6 [0, 0, 0, 1, 1], handOver] ++ roundEnd ++
    [hears 2 6 ([0, 0, 0, 10, 7, 0, 0, 0, 0, 0, 0, 64, 0, 5] ++ [0, 0, 0, 1, 0])]

def conclude : List Input := [handOver, handOver] ++ roundEnd

/-- What dispatching a Piece event that is in front will say about piece 0. -/
structure Outlook where
  peerId : Nat
  status : BlockStatus
  index : Nat
  senders : List Nat
  held : Bool
  promoted : Nat
  banned : Finset Bytes
  deriving DecidableEq

def outlook (sha1 : Bytes → Bytes) (sys : Sys) : Option Outlook :=
  match sys.phase with
  | .dispatching (.piece id block :: _) =>
    match sys.session.pieces.onBlock sha1 block with
    | .ok (result, _) => some {
        peerId := id
        status := result.status
        index := result.piece.index
        senders := (attemptsOf 0 sys.filed).current.map Filed.peerId
        held := (sys.session.bans.evidence.find? 0).isSome
        promoted := sys.session.peers.promoted
        banned := sys.session.peers.banned }
    | .error _ => none
  | _ => none

theorem rehearsed_attempts :
    (rehearse headDigest twoBlocks (meet ++ attempt 0 ++ conclude ++ attempt 0)).bind (fun sys =>
      (Transition.run (step headDigest wholeKernel) sys (conclude ++ attempt 1)).map (fun last =>
        (outlook headDigest sys, outlook headDigest last))) =
      some (some ⟨1, .pieceFailed, 0, [0], true, 2, ∅⟩, some ⟨1, .pieceVerified, 0, [0], true, 2, ∅⟩) := by
  decide +kernel

theorem outlook_some {sha1 : Bytes → Bytes} {sys : Sys} {seen : Outlook} (ahead : outlook sha1 sys = some seen) :
    ∃ block rest result next, sys.phase = .dispatching (.piece seen.peerId block :: rest) ∧
      sys.session.pieces.onBlock sha1 block = .ok (result, next) ∧
      result.status = seen.status ∧ result.piece.index = seen.index ∧
      (attemptsOf 0 sys.filed).current.map Filed.peerId = seen.senders ∧
      (sys.session.bans.evidence.find? 0).isSome = seen.held ∧
      sys.session.peers.promoted = seen.promoted ∧ sys.session.peers.banned = seen.banned := by
  unfold outlook at ahead
  split at ahead
  · rename_i id block rest here
    split at ahead
    · rename_i result next filed
      cases ahead
      exact ⟨block, rest, result, next, here, filed, rfl, rfl, rfl, rfl, rfl, rfl⟩
    · cases ahead
  · cases ahead

end Example

/-- Two attempts with two senders each fail, and a third one verifies: somebody is convicted. -/
theorem evidence_exact_third_attempt :
    ∃ sys id block piece next, Reached headDigest wholeKernel twoBlocks sys ∧
      sys.session.peers.promoted < 2 ^ 32 ∧
      sys.session.pieces.onBlock headDigest block = .ok (⟨.pieceVerified, piece⟩, next) ∧
      ((sys.session.bans.onBlock id block).onPieceVerified piece).1 ≠ [] := by
  obtain ⟨early, ran, later⟩ := Option.bind_eq_some_iff.mp rehearsed_attempts
  obtain ⟨sys, again, seen⟩ := Option.map_eq_some_iff.mp later
  have reached := (rehearse_reached ⟨_, twoBlocks_accepted⟩ ran).run again
  obtain ⟨block, rest, ⟨status, piece⟩, next, -, filed, verified, index, -, held, count, -⟩ :=
    outlook_some (Prod.mk.inj seen).2
  dsimp only at verified index held count
  subst verified
  obtain ⟨evidence, found⟩ := Option.isSome_iff_exists.mp held
  rw [← index] at found
  have few : sys.session.peers.promoted < 2 ^ 32 := by
    rw [count]
    decide
  exact ⟨sys, 1, block, piece, next, reached, few, filed,
    (evidence_exact headDigest wholeKernel twoBlocks sys reached few 1 block piece next filed evidence
      found).2.2.2.2.2⟩

/-- Content of which every piece passes, and no other bytes of the same length do. -/
structure Reference (sha1 : Bytes → Bytes) (t : TorrentFile) (content : Bytes) : Prop where
  size : content.length = t.totalLength
  passes : ∀ index < t.pieces.length,
    (PieceManager.create t).verify sha1 index (pieceBytes t content index) = true
  only : ∀ index < t.pieces.length, ∀ data : Bytes, data.length = pieceSize t index →
    (PieceManager.create t).verify sha1 index data = true → data = pieceBytes t content index

/-- Some connection of the host answered a request with bytes that are not the content's. -/
def Guilty (t : TorrentFile) (content : Bytes) (deliveries : List Delivery) (host : Bytes) : Prop :=
  ∃ delivery ∈ deliveries, delivery.conn.peer.host = host ∧
    answerOf delivery.block ∈ requestsOf delivery.conn.pending ∧
    delivery.block.data ≠ slice content
      (delivery.block.pieceIndex * t.pieceLength.toNat + delivery.block.offset)
      delivery.block.data.length

structure Just (t : TorrentFile) (content : Bytes) (f : Flow) : Prop where
  convicted : ∀ host ∈ f.convicted, Guilty t content f.deliveries host
  banned : ∀ host ∈ f.session.peers.banned, Guilty t content f.deliveries host

section Guilt

variable {sha1 : Bytes → Bytes} {kernel : Kernel} {t : TorrentFile} {content : Bytes} {f : Flow}

theorem Reference.piece_length (reference : Reference sha1 t content) (geometry : Geometry t)
    (index : Nat) (inside : index < t.pieces.length) :
    (pieceBytes t content index).length = pieceSize t index := by
  have last := geometry.piece_end index inside
  exact slice_length _ _ _ (by rw [reference.size]; exact last)

theorem Delivered.guilty (reference : Reference sha1 t content) (geometry : Geometry t)
    {id index b : Nat} {block : Block} {host data : Bytes} (delivered : Delivered f id block)
    (known : f.session.bans.hosts.find? id = some host) (inside : index < t.pieces.length)
    (slot : b < blockCount t index) (here : block.pieceIndex = index)
    (offset : block.offset = b * kBlockSize) (size : data.length = pieceSize t index)
    (bytes : block.data = chunk kBlockSize data b)
    (differs : chunk kBlockSize data b ≠ chunk kBlockSize (pieceBytes t content index) b) :
    Guilty t content f.deliveries host := by
  obtain ⟨delivery, came, arrived, -, asked, name⟩ := delivered
  rw [known] at name
  refine ⟨delivery, came, (Option.some.inj name).symm, by rw [arrived]; exact asked, ?_⟩
  rw [block_inside] at slot
  have width : block.data.length = min kBlockSize (pieceSize t index - b * kBlockSize) := by
    rw [bytes, chunk, slice_length _ _ _ (by omega), size]
  rw [arrived, width, bytes, here, offset]
  rw [chunk, chunk, reference.piece_length geometry index inside, pieceBytes,
    slice_slice _ _ _ _ _ (by omega), size] at differs
  rw [chunk, size]
  exact differs

theorem Judged.guilty (geometry : Geometry t) (reference : Reference sha1 t content)
    (books : Books sha1 t f) (named : Named f) {judged : Session} {id : Nat} {block : Block}
    {result : BlockResult} {hosts : List Bytes} {rest : List PeerEvent}
    (front : f.queue = .piece id block :: rest)
    (outcome : Judged sha1 kernel f.session id block result hosts judged) :
    ∀ host ∈ hosts, Guilty t content f.deliveries host := by
  intro host member
  cases outcome with
  | rejected count piece => cases member
  | incomplete count pp b pieces fits verdict => cases member
  | failed count pp b pieces piece fits verdict =>
    obtain ⟨senders, sent, some_sent⟩ := f.session.bans.onBlock_sent id block
    cases verdict with
    | failed full wrong =>
      have inside := books.valid.inside _ fits.counted
      have account := (books.traced.tracked block.pieceIndex).account fits id .pieceFailed books.valid
        geometry (books.balanced.whole books.valid front fits) full senders sent
      rcases BanManager.onPieceFailed_cases _ ⟨block.pieceIndex, (filedPiece pp block b).data⟩
          senders sent some_sent with ⟨first, all, same⟩ | ⟨-, same⟩
      · rw [same] at member
        have known := Option.mem_toList.mp member
        have different : (filedPiece pp block b).data ≠ pieceBytes t content block.pieceIndex := by
          intro equal
          have right := reference.passes _ inside
          rw [← equal, verify_congr sha1 books.valid.torrent.symm] at right
          rw [right] at wrong
          cases wrong
        obtain ⟨slot, bound, differs⟩ := account.differs
          (reference.piece_length geometry _ inside) different
        obtain ⟨entry, inAttempt, index, offset, sender, bytes⟩ := account.each slot bound
        have name := all entry.peerId (List.mem_of_getElem? sender)
        have delivered : Delivered f entry.peerId entry.block := by
          rcases List.mem_append.mp inAttempt with old | new
          · exact named.filed entry ((attempts_filed _ _).2 entry old)
          · rw [List.mem_singleton.mp new]
            exact named.queued id block (by rw [front]; exact List.mem_cons_self ..)
        exact delivered.guilty reference geometry (by rw [name]; exact known) inside bound index offset
          account.size bytes differs
      · rw [same] at member
        cases member
  | verified count pp b pieces piece written fits verdict stored =>
    cases verdict with
    | verified _ full right marked =>
      have inside := books.valid.inside _ fits.counted
      obtain ⟨-, -, -, size⟩ := filedPiece_facts geometry books.valid fits
      have kept := books.traced.evidence block.pieceIndex fits.wanted
      cases held : f.session.bans.evidence.find? block.pieceIndex with
      | none =>
        have nothing : (f.session.bans.onBlock id block).evidence.find? block.pieceIndex = none := held
        simp only [BanManager.onPieceVerified, nothing] at member
        cases member
      | some evidence =>
        rw [held] at kept
        obtain ⟨attempt, first, account, -⟩ := kept.attempt
        have listed := (onPieceVerified_list (f.session.bans.onBlock id block)
          ⟨block.pieceIndex, (filedPiece pp block b).data⟩ evidence held).2 host
        obtain ⟨slot, bound, differs, known⟩ := listed.mp member
        rw [sameBlock_false evidence _ geometry inside account size slot bound] at differs
        have passed : (filedPiece pp block b).data = pieceBytes t content block.pieceIndex := by
          refine reference.only _ inside _ size ?_
          rw [← right]
          exact verify_congr sha1 books.valid.torrent.symm _ _
        rw [passed] at differs
        have place := bound
        rw [account.count] at place
        obtain ⟨entry, inAttempt, index, offset, sender, bytes⟩ := account.each slot place
        rw [List.getD_eq_getElem?_getD, sender, Option.getD_some] at known
        have logged := (attempts_filed _ f.filed).1 attempt (List.mem_of_find?_eq_some first)
          entry inAttempt
        exact (named.filed entry logged).guilty reference geometry known inside place index offset
          account.size bytes differs

theorem Guilty.mono {more : List Delivery} {host : Bytes} (guilty : Guilty t content f.deliveries host)
    (grown : ∀ delivery ∈ f.deliveries, delivery ∈ more) : Guilty t content more host := by
  obtain ⟨delivery, came, rest⟩ := guilty
  exact ⟨delivery, grown delivery came, rest⟩

theorem Just.frame {next : Flow} (just : Just t content f) (convicted : next.convicted = f.convicted)
    (banned : next.session.peers.banned = f.session.peers.banned)
    (grown : ∀ delivery ∈ f.deliveries, delivery ∈ next.deliveries) : Just t content next := by
  refine ⟨?_, ?_⟩
  · rw [convicted]
    exact fun host member => (just.convicted host member).mono grown
  · rw [banned]
    exact fun host member => (just.banned host member).mono grown

theorem Judged.same_banned {s judged : Session} {id : Nat} {block : Block} {result : BlockResult}
    {hosts : List Bytes} (outcome : Judged sha1 kernel s id block result hosts judged) :
    judged.peers.banned = s.peers.banned := by
  cases outcome <;> rfl

theorem Just.quiet (geometry : Geometry t) (reference : Reference sha1 t content)
    (books : Books sha1 t f) (named : Named f) {next : Flow} (just : Just t content f)
    (move : Quiet sha1 kernel f next) : Just t content next := by
  have same : ∀ delivery ∈ f.deliveries, delivery ∈ f.deliveries := fun _ came => came
  cases move with
  | build order => exact just.frame rfl rfl same
  | round order revents env idle =>
    obtain ⟨acts, -⟩ := pollRound_acts order revents env books.custody.room
    exact just.frame rfl (acts_fixed acts).banned (fun _ came => List.mem_append_left _ came)
  | dial env fresh =>
    refine just.frame rfl ?_ same
    dsimp only
    rw [(addPeers_apart env f.session.peers fresh).same]
    rfl
  | complete => exact just.frame rfl rfl same
  | release event rest reqs front gives => exact just.frame rfl rfl same
  | join id rest front =>
    refine just.frame rfl ?_ same
    dsimp only
    rw [onJoined_peers]
  | serve id req rest session front served =>
    cases serve_cases geometry books.custody.sound id req session
        (books.custody.typed _ (by simp [front])) served with
    | ignored read kept => exact just.frame rfl rfl same
    | sent read kept held space inside count => exact just.frame rfl rfl same
  | file id block rest result taken judged hosts front idle took verdict =>
    have outcome := judge_cases sha1 kernel f.session taken judged id block result hosts took verdict
    refine ⟨outcome.guilty geometry reference books named front, ?_⟩
    rw [show judged.peers.banned = f.session.peers.banned from outcome.same_banned]
    exact just.banned
  | convict host hosts listed =>
    have found := just.convicted
    rw [listed] at found
    refine ⟨fun other member => found other (List.mem_cons_of_mem _ member), ?_⟩
    intro other member
    rcases Finset.mem_insert.mp member with here | old
    · rw [here]
      exact found host (List.mem_cons_self ..)
    · exact just.banned other old
  | expel id c found => exact just.frame rfl (drop_frame f.session.peers id []).banned same
  | expire id c cutoff found => exact just.frame rfl rfl same

theorem begins_just {sys : Sys} (begins : Begins sha1 kernel t sys) : Just t content sys.flow := by
  refine ⟨fun host member => ?_, fun host member => ?_⟩
  · cases member
  · rw [show sys.flow.session.peers.banned = ∅ from (begins_fresh begins).banned] at member
    exact absurd member (Finset.notMem_empty host)

def Fair (sha1 : Bytes → Bytes) (t : TorrentFile) (content : Bytes) (f : Flow) : Prop :=
  Record sha1 t f ∧ (f.session.peers.promoted < 2 ^ 32 → Just t content f)

theorem reached_fair (reference : Reference sha1 t content) {sys : Sys}
    (reached : Reached sha1 kernel t sys) : Fair sha1 t content sys.flow := by
  have geometry := reached_geometry reached
  refine reached_invariant (Fair sha1 t content) ?_ ?_ ?_ reached
  · exact fun sys begins => ⟨begins_record begins, fun _ => begins_just begins⟩
  · rintro f next ⟨record, just⟩ move
    have grown := (Named.quiet geometry record.books.custody move).1
    refine ⟨record.quiet geometry move, fun few => ?_⟩
    have before := Nat.lt_of_le_of_lt grown few
    exact (just before).quiet geometry reference record.books (record.named before) move
  · rintro f next ⟨record, just⟩ ask
    refine ⟨record.ask geometry ask, fun few => ?_⟩
    cases ask with
    | ask id c choice now req pieces found unchoked slot picked =>
      exact (just few).frame rfl rfl (fun _ came => came)
    | decline id c choice pieces picked => exact (just few).frame rfl rfl (fun _ came => came)

end Guilt

/-- Every host that was ever banned sent a block that differs from the content, in answer to
a request it had been sent. -/
theorem banned_guilty (sha1 : Bytes → Bytes) (kernel : Kernel) (t : TorrentFile) (content : Bytes)
    (sys : Sys) (reference : Reference sha1 t content) (reached : Reached sha1 kernel t sys)
    (few : sys.session.peers.promoted < 2 ^ 32) (host : Bytes)
    (banned : host ∈ sys.session.peers.banned) : Guilty t content sys.deliveries host :=
  ((reached_fair reference reached).2 few).banned host banned

theorem oneByteWanted_reference : Reference spotDigest oneByteWanted [1] := by
  refine ⟨rfl, ?_, ?_⟩
  · intro index inside
    have first : index = 0 := by
      have count : oneByteWanted.pieces.length = 1 := rfl
      omega
    subst first
    decide +kernel
  · intro index inside data size passes
    have first : index = 0 := by
      have count : oneByteWanted.pieces.length = 1 := rfl
      omega
    subst first
    have whole : pieceBytes oneByteWanted [1] 0 = [1] := by decide +kernel
    rw [whole]
    by_contra wrong
    have rejected : spotDigest data = List.replicate 20 1 := if_neg wrong
    obtain ⟨-, digest⟩ := of_decide_eq_true passes
    rw [rejected] at digest
    exact absurd digest (by decide)

/-- A peer that answers its only request with a wrong byte is banned. -/
theorem banned_guilty_wrong_byte :
    ∃ sys, Reached spotDigest wholeKernel oneByteWanted sys ∧ ascii "h" ∈ sys.session.peers.banned ∧
      Guilty oneByteWanted [1] sys.deliveries (ascii "h") := by
  have seen : (rehearse spotDigest oneByteWanted (welcome oneByteWanted (ascii "h") ++
      [arrives 1 (ascii "h") [0, 0, 0, 10, 7, 0, 0, 0, 0, 0, 0, 0, 0, 0], handOver])).map (fun sys =>
        (decide (ascii "h" ∈ sys.session.peers.banned), sys.session.peers.promoted)) = some (true, 1) := by
    decide +kernel
  obtain ⟨sys, ran, shown⟩ := Option.map_eq_some_iff.mp seen
  obtain ⟨banned, count⟩ := Prod.mk.inj shown
  have reached := rehearse_reached ⟨_, oneByteWanted_accepted⟩ ran
  have few : sys.session.peers.promoted < 2 ^ 32 := by
    rw [count]
    decide
  exact ⟨sys, reached, of_decide_eq_true banned,
    banned_guilty spotDigest wholeKernel oneByteWanted [1] sys oneByteWanted_reference reached few _
      (of_decide_eq_true banned)⟩

end TorrentPeer.Session
