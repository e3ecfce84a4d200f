import TorrentPeer.Runtime.Backlog
import TorrentPeer.Runtime.Forfeits
import TorrentPeer.Metainfo.InfoSpan

/-! How much can wait for a peer that never reads: what is sent whatever the queue holds, on
top of what `can_queue` lets in, and the requests that nothing holds back. -/

namespace TorrentPeer.Session

open Torrent PeerManager PeerConnection Wire Transition

def greetingBytes (pieceCount : Nat) : Nat := 15 + Bitfield.byteCount pieceCount

/-- Enough for the blocks `can_queue` lets in, our handshake, the greeting, a Have message for each
piece and a Request for each of its blocks, of which there are at most 4096. -/
def backlogBound (pieceCount : Nat) : Nat :=
  kMaxQueuedBlocks + 83 + (pieceCount + 7) / 8 + 9 * pieceCount + 17 * (4096 * pieceCount)

def allowance (t : TorrentFile) (f : Flow) (id : Nat) : Nat :=
  kMaxQueuedBlocks + 68 + (if id ∈ joinedIds f.queue then 0 else greetingBytes (t.pieces.length % 2 ^ 32)) +
    9 * f.session.pieces.haveCount

structure Loaded (t : TorrentFile) (f : Flow) : Prop where
  hello : (ownHandshake f.session.peers).length ≤ 68
  conns : ∀ id c, f.session.peers.conns.find? id = some c →
    c.queuedBytes ≤ allowance t f id + 17 * (requestedOf c).length

section Rounds

theorem touches_bytes {c after : PeerConnection} (tallied : Tallied c) (touch : Touches c after) :
    after.queuedBytes ≤ max c.queuedBytes 4 := by
  cases touch with
  | drain result now =>
    apply Nat.le_trans _ (Nat.le_max_left _ _)
    unfold PeerConnection.drain
    split
    · exact Nat.le_refl _
    · split
      · exact Nat.le_refl _
      · exact Nat.le_refl _
      · simp only [PeerConnection.advance]
        split
        · exact Nat.sub_le _ _
        · exact Nat.le_refl _
  | receive chunk now => exact Nat.le_max_left _ _
  | ping empty =>
    have none_left : c.queuedBytes = 0 := by
      rw [tallied.counted, empty]
      rfl
    simp only [PeerConnection.enqueue, none_left, Message.bytes]
    exact Nat.le_max_right _ _
  | message rest id frequency out msg handled extracted effect =>
    apply Nat.le_trans _ (Nat.le_max_left _ _)
    cases effect with
    | cancelled index offset length =>
      unfold removeQueuedPiece
      dsimp only
      split
      · exact Nat.le_refl _
      · exact Nat.sub_le _ _
    | _ => exact Nat.le_refl _

/-- A round in progress: nobody's queue grows but that of a new peer. -/
structure Relaxed (start : PeerManager) (w : World) : Prop where
  queued : Queued w.pm
  hello : ownHandshake w.pm = ownHandshake start
  more : start.promoted ≤ w.pm.promoted
  conns : ∀ id c, w.pm.conns.find? id = some c →
    (∃ old, start.conns.find? id = some old ∧ requestedOf c = requestedOf old ∧
      c.queuedBytes ≤ max old.queuedBytes 4) ∨
      start.promoted ≤ id ∧ id < w.pm.promoted ∧ c.queuedBytes ≤ max (ownHandshake start).length 4

theorem Relaxed.act {start : PeerManager} {w next : World} {a : Act} (relaxed : Relaxed start w)
    (low : ∀ id c, start.conns.find? id = some c → id < start.promoted) (own : a.Own)
    (moves : act w a = some next) (few : next.pm.promoted < 2 ^ 32) : Relaxed start next := by
  have grown := (act_fixed own moves).promoted
  have more := relaxed.more
  have below : ∀ id c, w.pm.conns.find? id = some c → id < w.pm.promoted := by
    intro id c found
    rcases relaxed.conns id c found with ⟨old, present, -⟩ | ⟨-, high, -⟩
    · exact Nat.lt_of_lt_of_le (low id old present) more
    · exact high
  have keeps : ∀ (id : Nat) (c after : PeerConnection), w.pm.conns.find? id = some c →
      requestedOf after = requestedOf c → after.queuedBytes ≤ max c.queuedBytes 4 →
      (∃ old, start.conns.find? id = some old ∧ requestedOf after = requestedOf old ∧
        after.queuedBytes ≤ max old.queuedBytes 4) ∨
        start.promoted ≤ id ∧ id < next.pm.promoted ∧ after.queuedBytes ≤ max (ownHandshake start).length 4 := by
    intro id c after present asks less
    rcases relaxed.conns id c present with ⟨old, earlier, same, bound⟩ | ⟨late, high, bound⟩
    · exact Or.inl ⟨old, earlier, asks.trans same, by omega⟩
    · exact Or.inr ⟨late, by omega, by omega⟩
  have hello := fixed_handshake (act_fixed own moves)
  refine ⟨acts_queued (Reaches.one a own moves) relaxed.queued, hello.trans relaxed.hello,
    Nat.le_trans more grown, ?_⟩
  intro id c found
  rcases act_connection own moves found with
    ⟨old, present, same | ⟨-, touch⟩ | ⟨here, -⟩⟩ | ⟨-, here, counted, -, sock, peer, now, answers, -, same⟩
  · exact keeps id old c present (by rw [same]) (by rw [same]; exact Nat.le_max_left _ _)
  · exact keeps id old c present (Alters.touch old c touch).requested
      (touches_bytes (relaxed.queued id old present) touch)
  · rw [Nat.mod_eq_of_lt (Nat.lt_of_le_of_lt grown few)] at here
    exact absurd (below id old present) (Nat.not_lt.mpr (Nat.le_of_eq here.symm))
  · rw [Nat.mod_eq_of_lt (Nat.lt_of_le_of_lt grown few)] at here
    refine Or.inr ⟨by omega, by omega, ?_⟩
    rw [same, ← relaxed.hello]
    cases answers with
    | false => exact Nat.zero_le _
    | true =>
      show 0 + (ownHandshake w.pm).length ≤ _
      omega

theorem acts_relaxed {start : PeerManager} {w : World} (moves : Acts ⟨start, []⟩ w) (queued : Queued start)
    (low : ∀ id c, start.conns.find? id = some c → id < start.promoted) (few : w.pm.promoted < 2 ^ 32) :
    Relaxed start w := by
  have step : ∀ state after a, Act.Own a → (state.pm.promoted < 2 ^ 32 → Relaxed start state) →
      PeerManager.act state a = some after → after.pm.promoted < 2 ^ 32 → Relaxed start after := by
    intro state after a own before moved bound
    exact (before (Nat.lt_of_le_of_lt (act_fixed own moved).promoted bound)).act low own moved bound
  refine Reaches.preserves step moves (fun _ => ⟨queued, rfl, Nat.le_refl _, ?_⟩) few
  intro id c found
  exact Or.inl ⟨c, found, rfl, Nat.le_max_left _ _⟩

end Rounds

section Counts

variable {t : TorrentFile} {pieces next : PieceManager} (valid : PieceManager.Valid t pieces)
  (after : PieceManager.Valid t next)

include valid after

theorem same_count (same : next.have_ = pieces.have_) : next.haveCount = pieces.haveCount := by
  rw [after.haves, valid.haves, same, after.pieceCount, valid.pieceCount]

theorem gained_count {index : Nat} (counted : index < pieces.pieceCount) (wanted : pieces.have_.get index = false)
    (gained : ∀ j, next.have_.get j = (decide (j = index) || pieces.have_.get j)) :
    next.haveCount = pieces.haveCount + 1 := by
  rw [after.haves, valid.haves, after.pieceCount, ← valid.pieceCount]
  exact PieceManager.countP_insert pieces.pieceCount index _ _ counted wanted gained

end Counts

section Moves

variable {sha1 : Bytes → Bytes} {kernel : Kernel} {t : TorrentFile} {f next : Flow}

theorem Loaded.lighter (loaded : Loaded t f) (joined : joinedIds next.queue = joinedIds f.queue)
    (hello : ownHandshake next.session.peers = ownHandshake f.session.peers)
    (count : next.session.pieces.haveCount = f.session.pieces.haveCount)
    (conns : ∀ id c, next.session.peers.conns.find? id = some c →
      (∃ old, f.session.peers.conns.find? id = some old ∧ requestedOf c = requestedOf old ∧
        c.queuedBytes ≤ old.queuedBytes) ∨ c.queuedBytes ≤ kMaxQueuedBlocks) : Loaded t next := by
  refine ⟨by rw [hello]; exact loaded.hello, ?_⟩
  intro id c found
  have same : allowance t next id = allowance t f id := by
    rw [allowance, allowance, joined, count]
  rw [same]
  rcases conns id c found with ⟨old, present, asks, less⟩ | capped
  · rw [asks]
    exact Nat.le_trans less (loaded.conns id old present)
  · rw [allowance]
    omega

theorem Loaded.round (loaded : Loaded t f) (named : Named f) (queued : Queued f.session.peers)
    (room : f.session.peers.Room) (idle : f.queue = []) (order : List Nat) (revents : Nat → Nat) (env : Env)
    (few : (f.session.pollRound order revents env).1.peers.promoted < 2 ^ 32) (deliveries : List Delivery) :
    Loaded t { f with
      session := (f.session.pollRound order revents env).1
      queue := (f.session.pollRound order revents env).2
      deliveries := deliveries } := by
  have acts := (pollRound_acts order revents env room).1
  have since := acts_since acts few
  have relaxed := acts_relaxed acts queued (fun id c found => (named.ids id c found).1) few
  have hello := loaded.hello
  refine ⟨by rw [show ownHandshake _ = _ from relaxed.hello]; exact hello, ?_⟩
  intro id c found
  have room : 68 ≤ allowance t { f with
      session := (f.session.pollRound order revents env).1
      queue := (f.session.pollRound order revents env).2
      deliveries := deliveries } id := by
    rw [allowance]
    omega
  rcases relaxed.conns id c found with ⟨old, present, asks, bound⟩ | ⟨-, -, bound⟩
  · have before := loaded.conns id old present
    have kept : allowance t f id = allowance t { f with
        session := (f.session.pollRound order revents env).1
        queue := (f.session.pollRound order revents env).2
        deliveries := deliveries } id := by
      have absent : id ∉ joinedIds (f.session.pollRound order revents env).2 := by
        intro member
        have late := (since.joined id member).1
        have early := (named.ids id old present).1
        exact Nat.not_lt.mpr late early
      have nobody : id ∉ joinedIds f.queue := by
        rw [idle]
        exact List.not_mem_nil
      rw [allowance, if_neg nobody, allowance, if_neg absent]
      rfl
    rw [← kept] at room ⊢
    rw [asks]
    omega
  · omega

theorem greeted_bytes (have_ : Bitfield) (complete : Bool) (c : PeerConnection) :
    (greeted have_ complete c).queuedBytes ≤ c.queuedBytes + (15 + have_.bytes.length) := by
  have field : (Message.bytes (.bitfield have_.bytes)).length = 5 + have_.bytes.length := buildMessage_length _ _
  have unchoke : (Message.bytes .unchoke).length = 5 := rfl
  have interested : (Message.bytes .interested).length = 5 := rfl
  cases complete with
  | true =>
    simp only [greeted, if_true, PeerConnection.enqueue, field, unchoke]
    omega
  | false =>
    simp only [greeted, Bool.false_eq_true, if_false, PeerConnection.enqueue, field, unchoke, interested]
    omega

theorem Loaded.join (loaded : Loaded t f) (named : Named f) (valid : PieceManager.Valid t f.session.pieces) {id : Nat}
    {rest : List PeerEvent} (front : f.queue = .joined id :: rest) :
    Loaded t { f with session := f.session.onJoined id, queue := rest } := by
  have waiting : joinedIds f.queue = id :: joinedIds rest := by
    rw [front]
    rfl
  have gone : id ∉ joinedIds rest := by
    have once := named.once
    rw [waiting] at once
    exact (List.nodup_cons.mp once).1
  have count : (f.session.onJoined id).pieces.haveCount = f.session.pieces.haveCount := rfl
  refine ⟨?_, ?_⟩
  · dsimp only
    rw [onJoined_peers]
    exact loaded.hello
  · intro other c found
    dsimp only at found
    rw [onJoined_peers] at found
    obtain ⟨old, present, same | ⟨here, same⟩⟩ := find_modify_some found
    · have before := loaded.conns other old present
      rw [same]
      refine Nat.le_trans before (Nat.add_le_add_right ?_ _)
      simp only [allowance, count, waiting, List.mem_cons]
      split
      · omega
      · rename_i neither
        rw [if_neg (fun member => neither (Or.inr member))]
    · have before := loaded.conns other old present
      have added := greeted_bytes f.session.pieces.have_ f.session.pieces.isComplete old
      rw [valid.bytes, valid.pieceCount] at added
      rw [allowance, waiting, here, if_pos (List.mem_cons_self ..)] at before
      rw [same, requested_greeted, here, allowance]
      dsimp only
      rw [if_neg gone, count, greetingBytes]
      omega

theorem Loaded.file (geometry : Geometry t) (valid : PieceManager.Valid t f.session.pieces) (loaded : Loaded t f)
    {id : Nat} {block : Block} {rest : List PeerEvent} {result : BlockResult} {judged : Session} {hosts : List Bytes}
    (front : f.queue = .piece id block :: rest)
    (outcome : Judged sha1 kernel f.session id block result hosts judged) (filed : List Filed) :
    Loaded t { f with session := judged, queue := rest, convicted := hosts, filed := filed } := by
  have joined : joinedIds rest = joinedIds f.queue := popped_joined front (by simp)
  have same : ∀ other c, f.session.peers.conns.find? other = some c →
      (∃ old, f.session.peers.conns.find? other = some old ∧ requestedOf c = requestedOf old ∧
        c.queuedBytes ≤ old.queuedBytes) ∨ c.queuedBytes ≤ kMaxQueuedBlocks :=
    fun _ c found => Or.inl ⟨c, found, rfl, Nat.le_refl _⟩
  cases outcome with
  | rejected count piece => exact loaded.lighter joined rfl rfl same
  | incomplete count pp b pieces fits verdict =>
    cases verdict
    exact loaded.lighter joined rfl rfl same
  | failed count pp b pieces piece fits verdict =>
    cases verdict
    exact loaded.lighter joined rfl rfl same
  | verified count pp b pieces piece written fits verdict stored =>
    have more : pieces.haveCount = f.session.pieces.haveCount + 1 := by
      apply gained_count valid (verdict.keeps_valid geometry valid fits) fits.counted fits.wanted
      cases verdict with
      | verified _ full right marked =>
        exact (PieceManager.markHave_valid (PieceManager.erase_valid valid block.pieceIndex) block.pieceIndex
          fits.counted fits.wanted (by simp) marked).2.2.2
    refine ⟨loaded.hello, ?_⟩
    intro other c found
    simp only [broadcastHave, Table.find_update] at found
    obtain ⟨old, present, changed⟩ := Option.map_eq_some_iff.mp found
    have before := loaded.conns other old present
    have size : (Message.bytes (.have_ piece.index)).length = 9 := rfl
    rw [allowance] at before
    rw [← changed, requested_enqueue old (.have_ piece.index) (by simp), allowance]
    dsimp only
    rw [joined, more]
    simp only [PeerConnection.enqueue, size]
    omega

theorem Loaded.quiet (geometry : Geometry t) (record : Record sha1 t f) (queued : Queued f.session.peers)
    (loaded : Loaded t f) (move : Quiet sha1 kernel f next) (few : next.session.peers.promoted < 2 ^ 32) :
    Loaded t next := by
  have custody := record.books.custody
  have valid := record.books.valid
  have grown := (Named.quiet geometry custody move).1
  have named := record.named (Nat.lt_of_le_of_lt grown few)
  have released : ∀ reqs, (f.session.pieces.release reqs).haveCount = f.session.pieces.haveCount :=
    fun reqs => same_count valid (PieceManager.release_valid valid reqs) (release_have _ reqs)
  have same : ∀ id c, f.session.peers.conns.find? id = some c →
      (∃ old, f.session.peers.conns.find? id = some old ∧ requestedOf c = requestedOf old ∧
        c.queuedBytes ≤ old.queuedBytes) ∨ c.queuedBytes ≤ kMaxQueuedBlocks :=
    fun _ c found => Or.inl ⟨c, found, rfl, Nat.le_refl _⟩
  cases move with
  | build order => exact loaded.lighter rfl rfl rfl same
  | round order revents env idle => exact loaded.round named queued custody.room idle order revents env few _
  | dial env fresh =>
    have apart := addPeers_apart env f.session.peers fresh
    refine loaded.lighter rfl ?_ rfl ?_
    · dsimp only
      rw [apart.same]
      rfl
    · dsimp only
      rw [apart.conns]
      exact same
  | complete => exact loaded.lighter rfl rfl rfl same
  | convict host hosts listed => exact loaded.lighter rfl rfl rfl same
  | release event rest reqs front gives =>
    have other : ∀ id, event ≠ .joined id := by
      rintro id rfl
      cases gives
    exact loaded.lighter (popped_joined front other) rfl (released reqs) same
  | join id rest front => exact loaded.join named valid front
  | serve id req rest session front served =>
    have typed : RequestTyped (.request id req) := custody.typed _ (by rw [front]; exact List.mem_cons_self ..)
    cases serve_cases geometry custody.sound id req session typed served with
    | ignored read kept => exact loaded.lighter (popped_joined front (by simp)) rfl rfl same
    | sent read kept held space inside count =>
      refine loaded.lighter (popped_joined front (by simp)) rfl rfl ?_
      intro other c found
      obtain ⟨old, present, unchanged | ⟨here, changed⟩⟩ := find_modify_some found
      · exact Or.inl ⟨old, present, by rw [unchanged], by rw [unchanged]⟩
      · rw [here] at present
        rw [canQueue, present] at space
        have below := of_decide_eq_true space
        have short : (Splice.slice (pieceBytes t (onDisk f.session.disk f.session.store) req.pieceIndex)
            req.offset req.length).length ≤ req.length := List.length_take_le _ _
        have small := typed.2.2
        right
        rw [changed]
        simp only [PeerConnection.enqueue, Message.bytes, buildMessage_length, List.length_append,
          BigEndian.be32_length, kMaxQueuedBlocks]
        omega
  | file id block rest result taken judged hosts front idle took verdict =>
    have outcome := judge_cases sha1 kernel f.session taken judged id block result hosts took verdict
    exact loaded.file geometry valid front outcome _
  | expel id c found =>
    refine loaded.lighter rfl ?_ (released _) ?_
    · dsimp only [expel]
      simp only [PeerManager.drop, found]
      rfl
    · intro other after present
      rw [expel_conns id c found, Table.find_erase] at present
      split at present
      · cases present
      · exact same other after present
  | expire id c cutoff found =>
    refine loaded.lighter rfl rfl (released _) ?_
    intro other after present
    obtain ⟨old, located, unchanged | ⟨-, changed⟩⟩ := find_modify_some present
    · exact Or.inl ⟨old, located, by rw [unchanged], by rw [unchanged]⟩
    · exact Or.inl ⟨old, located, by rw [changed]; rfl, by rw [changed]⟩

theorem Loaded.ask (geometry : Geometry t) (custody : Custody sha1 t f) (loaded : Loaded t f) {asked : Session}
    (ask : Ask f.session asked) : Loaded t { f with session := asked } := by
  have valid := custody.sound.valid
  cases ask with
  | decline id c choice pieces picked =>
    have same := PieceManager.pickBlock_none geometry valid _ _ _ _ _ picked
    subst same
    exact ⟨loaded.hello, loaded.conns⟩
  | ask id c choice now req pieces located unchoked slot picked =>
    obtain ⟨opened, pp, b, pick⟩ := PieceManager.pickBlock_some geometry valid _ _ _ _ _ _ picked
    obtain ⟨index, offset, length⟩ := picked_small geometry custody picked
    have count := same_count valid pick.next_valid pick.same_have
    refine ⟨loaded.hello, ?_⟩
    intro other after found
    have same : allowance t { f with session := { f.session with
        pieces := pieces, peers := f.session.peers.sendRequest id req now } } other = allowance t f other := by
      simp only [allowance, count]
    rw [same]
    obtain ⟨old, present, unchanged | ⟨-, changed⟩⟩ := find_modify_some found
    · rw [unchanged]
      exact loaded.conns other old present
    · have before := loaded.conns other old present
      have longer := requestedOf_request old req now index offset length
      have grown : after.queuedBytes = old.queuedBytes + 17 := by
        rw [changed]
        rfl
      rw [grown, changed, longer, List.length_append, List.length_singleton]
      omega

end Moves

section Runs

variable {sha1 : Bytes → Bytes} {kernel : Kernel} {t : TorrentFile}

theorem begins_hello (digests : ∀ data, (sha1 data).length = 20) {sys : Sys} (begins : Begins sha1 kernel t sys) :
    (ownHandshake sys.session.peers).length = 68 := by
  have fresh := begins_fresh begins
  obtain ⟨⟨data, accepted⟩, -⟩ := begins
  obtain ⟨entries, fields, after, -, -, digest⟩ := accepted_info sha1 data t accepted
  have size : t.infoHash.length = 20 := by
    rw [digest]
    exact digests _
  simp only [ownHandshake, Message.bytes, buildHandshake, List.length_cons, List.length_append, List.length_replicate,
    fresh.torrent, fresh.peerId, size]
  rfl

theorem reached_loaded (digests : ∀ data, (sha1 data).length = 20) {sys : Sys} (reached : Reached sha1 kernel t sys)
    (few : sys.session.peers.promoted < 2 ^ 32) : Loaded t sys.flow := by
  have geometry := reached_geometry reached
  have all : Record sha1 t sys.flow ∧ Queued sys.flow.session.peers ∧
      (sys.flow.session.peers.promoted < 2 ^ 32 → Loaded t sys.flow) := by
    refine reached_invariant (fun f => Record sha1 t f ∧ Queued f.session.peers ∧
      (f.session.peers.promoted < 2 ^ 32 → Loaded t f)) ?_ ?_ ?_ reached
    · intro sys begins
      have alone : ∀ id, sys.flow.session.peers.conns.find? id = none := by
        intro id
        rw [show sys.flow.session.peers.conns = Table.empty from (begins_fresh begins).conns]
        rfl
      refine ⟨begins_record begins, ?_, fun _ => ⟨Nat.le_of_eq (begins_hello digests begins), ?_⟩⟩
      · intro id c found
        rw [alone] at found
        cases found
      · intro id c found
        rw [alone] at found
        cases found
    · rintro f next ⟨record, queued, loaded⟩ move
      have grown := (Named.quiet geometry record.books.custody move).1
      refine ⟨record.quiet geometry move, queued_quiet geometry record.books.custody queued move, fun bound => ?_⟩
      exact (loaded (Nat.lt_of_le_of_lt grown bound)).quiet geometry record queued move bound
    · rintro f next ⟨record, queued, loaded⟩ ask
      refine ⟨record.ask geometry ask, queued_ask queued ask, fun bound => ?_⟩
      have same : next.peers.promoted = f.session.peers.promoted := by cases ask <;> rfl
      exact (loaded (same ▸ bound)).ask geometry record.books.custody ask
  exact all.2.2 few

theorem allowance_bound {sys : Sys} (valid : PieceManager.Valid t sys.session.pieces) (id : Nat) :
    allowance t sys.flow id + 17 * (4096 * t.pieces.length) ≤ backlogBound t.pieces.length := by
  have fewer : t.pieces.length % 2 ^ 32 ≤ t.pieces.length := Nat.mod_le _ _
  have count : sys.session.pieces.haveCount ≤ t.pieces.length := by
    rw [valid.haves, valid.pieceCount]
    have most := List.countP_le_length (p := sys.session.pieces.have_.get)
      (l := List.range (t.pieces.length % 2 ^ 32))
    rw [List.length_range] at most
    omega
  have field : Bitfield.byteCount (t.pieces.length % 2 ^ 32) ≤ (t.pieces.length + 7) / 8 := by
    rw [Bitfield.byteCount]
    omega
  have held : sys.flow.session.pieces.haveCount = sys.session.pieces.haveCount := rfl
  rw [allowance, greetingBytes, backlogBound, held]
  split <;> omega

end Runs

/-- What a peer's queue holds is bounded by the number of pieces and the number of requests to it
that have come to nothing, in every state of every run and after every act of a round. So a peer
that takes none back by a Choke, lets none time out and is sent none for a piece that fails cannot
make the client hold more than a bound that depends on the number of pieces only. -/
theorem queue_bounded (sha1 : Bytes → Bytes) (kernel : Kernel) (t : TorrentFile)
    (digests : ∀ data, (sha1 data).length = 20) (id : Nat) (l : Forfeiting)
    (reached : ReachedForfeiting sha1 kernel t id l) (w : World) (acts : Acts ⟨l.sys.session.peers, []⟩ w)
    (few : w.pm.promoted < 2 ^ 32) (c : PeerConnection) (found : w.pm.conns.find? id = some c) :
    c.queuedBytes ≤ backlogBound t.pieces.length + 17 * l.lost.length := by
  have run := reached.forget
  have record := reached_record run
  have grown : l.sys.session.peers.promoted ≤ w.pm.promoted := (acts_fixed acts).promoted
  have bound := Nat.lt_of_le_of_lt grown few
  have loaded := reached_loaded digests run bound
  have named := record.named bound
  have relaxed := acts_relaxed acts (reached_queued run) (fun other d present => (named.ids other d present).1) few
  rcases relaxed.conns id c found with ⟨old, present, asks, size⟩ | ⟨-, -, size⟩
  · have before := loaded.conns id old present
    have fits := allowance_bound record.books.valid id
    have requests := (reached_settlement reached).few (reached_geometry run) record.books.balanced
      record.books.valid present
    have least : 4 ≤ allowance t l.sys.flow id := by
      rw [allowance]
      omega
    omega
  · have hello : (ownHandshake l.sys.session.peers).length ≤ 68 := loaded.hello
    have least : 68 ≤ backlogBound t.pieces.length := by
      rw [backlogBound]
      omega
    omega

section Example

def flip : Bytes := [0, 0, 0, 1, 0, 0, 0, 0, 1, 1]

def flipRound : List Input :=
  [arrives 1 (ascii "h") flip, .dispatch (fun _ => []), .dispatch (fun _ => [])] ++ roundEnd

theorem rehearsed_flip :
    (rehearse spotDigest oneByteWanted []).bind (fun sys =>
      (Transition.run (forfeitStep spotDigest wholeKernel 0) ⟨sys, []⟩
        (welcome oneByteWanted (ascii "h") ++ flipRound)).map (fun l =>
          (l.sys.session.peers.promoted, l.lost,
            (l.sys.session.peers.conns.find? 0).map PeerConnection.queuedBytes))) =
      some (1, [⟨0, 0, 1⟩], some 118) := by
  decide +kernel

end Example

/-- A peer that has been greeted, and asked for the same block twice. -/
theorem queue_bounded_asked_again :
    ∃ l c, ReachedForfeiting spotDigest wholeKernel oneByteWanted 0 l ∧ l.sys.session.peers.promoted = 1 ∧
      l.lost.length = 1 ∧ l.sys.session.peers.conns.find? 0 = some c ∧ c.queuedBytes = 118 ∧
      c.queuedBytes ≤ backlogBound 1 + 17 * 1 := by
  obtain ⟨start, ran, later⟩ := Option.bind_eq_some_iff.mp rehearsed_flip
  obtain ⟨l, moves, seen⟩ := Option.map_eq_some_iff.mp later
  rw [Prod.mk.injEq, Prod.mk.injEq] at seen
  obtain ⟨one, lost, queued⟩ := seen
  obtain ⟨c, found, bytes⟩ := Option.map_eq_some_iff.mp queued
  obtain ⟨first, begins, stays⟩ := rehearse_begins ⟨_, oneByteWanted_accepted⟩ ran
  cases stays
  have reached : ReachedForfeiting spotDigest wholeKernel oneByteWanted 0 l :=
    Reachable.run (.start ⟨start, []⟩ ⟨begins, rfl⟩) moves
  have digests : ∀ data, (spotDigest data).length = 20 := by
    intro data
    rw [spotDigest]
    split <;> exact List.length_replicate
  have few : l.sys.session.peers.promoted < 2 ^ 32 := by
    rw [one]
    decide
  have count : l.lost.length = 1 := by rw [lost]; rfl
  have bound := queue_bounded spotDigest wholeKernel oneByteWanted digests 0 l reached ⟨l.sys.session.peers, []⟩ .refl
    few c found
  rw [count] at bound
  exact ⟨l, c, reached, one, count, found, bytes, bound⟩

section Example

/-- A peer that has unchoked us and been asked for the only block, with a queue it never reads. -/
def beggar (queue : List Bytes) (bytes : Nat) (received : Bytes) (handled enqueued : List Bytes) :
    PeerConnection where
  id := 0
  sock := ⟨5, [], received⟩
  peer := ⟨ascii "h", ascii "1"⟩
  amChoking := false
  amInterested := true
  peerChoking := false
  gotBitfield := true
  pending := [⟨⟨0, 0, 1⟩, 0⟩]
  lastSent := 0
  lastReceived := 0
  hasPieces := ⟨1, [128]⟩
  writeBuffer := queue
  queuedBytes := bytes
  handled := handled
  enqueued := enqueued

def onlyPeer (pm : PeerManager) (c : PeerConnection) : PeerManager :=
  { pm with
    conns := ⟨[(0, c)], List.nodup_singleton 0⟩
    inbound := []
    outbound := []
    candidates := []
    listenSock := some 3
    pieceFrequency := [1] }

def onlyBlock (state : BlockState) : PieceManager where
  torrent := oneByteWanted
  pieceCount := 1
  have_ := ⟨1, [0]⟩
  haveBytes := 0
  haveCount := 0
  active := ⟨[(0, { data := [0], states := [state] })], List.nodup_singleton 0⟩

def flipFill : FillEnv := ⟨[], fun _ _ => ⟨[], 0⟩, fun _ _ => 0, [], fun _ => ⟨[], 0⟩, fun _ => 0⟩

def again : Bytes := Message.bytes (.request ⟨0, 0, 1⟩)

section Lap

variable (pm : PeerManager) (c : PeerConnection)

theorem extract_choke : extractMessage flip = .ok (some ([0], [0, 0, 0, 1, 1])) :=
  extractMessage_frame [0] [0, 0, 0, 1, 1] (by decide)

theorem extract_unchoke : extractMessage [0, 0, 0, 1, 1] = .ok (some ([1], [])) :=
  extractMessage_frame [1] [] (by decide)

theorem find_onlyPeer : (onlyPeer pm c).conns.find? 0 = some c := rfl

theorem modify_onlyPeer (change : PeerConnection → PeerConnection) :
    { onlyPeer pm c with conns := (onlyPeer pm c).conns.modify 0 change } = onlyPeer pm (change c) := rfl

theorem choke_onlyPeer : (onlyPeer pm c).handleMessage 0 [0] [] =
    (onlyPeer pm { c with peerChoking := true, pending := [] }, [.choke 0 (requestsOf c.pending)], none) := rfl

theorem unchoke_onlyPeer (out : List PeerEvent) : (onlyPeer pm c).handleMessage 0 [1] out =
    (onlyPeer pm { c with peerChoking := false }, out ++ [.unchoke 0], none) := rfl

variable (first : Bytes) (queue : List Bytes) (bytes : Nat) (received : Bytes) (handled enqueued : List Bytes)

theorem read_flip :
    readMessages 0 11 (onlyPeer pm { beggar queue bytes received handled enqueued with readBuffer := flip }) [] =
      (onlyPeer pm { beggar queue bytes received (handled ++ [[0]] ++ [[1]]) enqueued with pending := [] },
        [.choke 0 [⟨0, 0, 1⟩], .unchoke 0], false) := by
  simp only [readMessages, find_onlyPeer, Option.map_some, extract_choke, extract_unchoke, modify_onlyPeer,
    choke_onlyPeer, unchoke_onlyPeer]
  rfl

def flipEnv : Env := { quietEnv with recv := fun _ => .data flip, accepts := [⟨5, ascii "h", 1⟩] }

theorem serve_flip :
    serveConnection flipEnv (onlyPeer pm (beggar (first :: queue) bytes received handled enqueued)) 0 pollIn [] =
      (onlyPeer pm { beggar (first :: queue) bytes (received ++ flip) (handled ++ [[0]] ++ [[1]]) enqueued with
          pending := [] },
        [.choke 0 [⟨0, 0, 1⟩], .unchoke 0], false) := by
  have chunk : flip.take 16384 = flip := List.take_of_length_le (by decide)
  have fresh : flip ≠ [] := by decide
  have noticed : pollIn ≠ 0 := by decide
  have idle : writable pollIn = false := by decide
  have ready : readable pollIn = true := by decide
  rw [serveConnection, if_neg noticed, find_onlyPeer]
  simp only [idle, ready, Bool.false_eq_true, Bool.true_eq_false, if_false]
  rw [modify_onlyPeer, readConnection]
  have answer : flipEnv.recv (beggar (first :: queue) bytes received handled enqueued).sock.fd = .data flip := rfl
  rw [answer]
  simp only [chunk, if_neg fresh]
  rw [modify_onlyPeer]
  exact read_flip pm (first :: queue) bytes (received ++ flip) handled enqueued

/-- The manager after `build_fds`. -/
def indexed (pm : PeerManager) : PeerManager :=
  { pm with ids := [0], inboundAt := 1, outboundAt := 1, connsAt := 1 }

theorem build_onlyPeer :
    (onlyPeer pm (beggar (first :: queue) bytes received handled enqueued)).buildFds [] =
      ([⟨3, pollIn, 0⟩, ⟨5, pollIn ||| pollOut, 0⟩],
        onlyPeer (indexed pm) (beggar (first :: queue) bytes received handled enqueued)) := rfl

def flipped : PeerConnection :=
  { beggar (first :: queue) bytes (received ++ flip) (handled ++ [[0]] ++ [[1]]) enqueued with pending := [] }

def flipFds : List PollFd :=
  answered [⟨3, pollIn, 0⟩, ⟨5, pollIn ||| pollOut, 0⟩] (fun i => if i = 1 then pollIn else 0)

theorem pass_flip :
    servePass flipEnv flipFds (onlyPeer (indexed pm) (beggar (first :: queue) bytes received handled enqueued)) =
      (onlyPeer (indexed pm) (flipped first queue bytes received handled enqueued),
        [.choke 0 [⟨0, 0, 1⟩], .unchoke 0], []) := by
  have served := serve_flip (indexed pm) first queue bytes received handled enqueued
  generalize starts : onlyPeer (indexed pm) (beggar (first :: queue) bytes received handled enqueued) =
    start at served ⊢
  have nobody_in : inboundPass flipEnv flipFds start [] = (start, []) := by
    rw [← starts]
    rfl
  have nobody_out : outboundPass flipEnv flipFds start [] = (start, []) := by
    rw [← starts]
    rfl
  have ids : start.ids = [0] := by
    rw [← starts]
    rfl
  have place : start.connsAt = 1 := by
    rw [← starts]
    rfl
  have ready : reventsAt flipFds 1 = pollIn := rfl
  simp only [servePass, nobody_in, nobody_out, ids, place, serveLoop, ready, served]
  rfl

theorem poll_flip (s : Session)
    (peers : s.peers = onlyPeer pm (beggar (first :: queue) bytes received handled enqueued)) :
    s.pollRound [] (fun i => if i = 1 then pollIn else 0) flipEnv =
      ({ s with peers := onlyPeer (indexed pm) (flipped first queue bytes received handled enqueued) },
        [.choke 0 [⟨0, 0, 1⟩], .unchoke 0]) := by
  have pass := pass_flip pm first queue bytes received handled enqueued
  rw [flipFds] at pass
  rw [pollRound, peers, build_onlyPeer]
  dsimp only
  rw [handleEvents, pass]
  rfl

theorem pick_missing :
    (onlyBlock .missing).pickBlock ⟨1, [128]⟩ [1] 0 ⟨[], 0⟩ = (some ⟨0, 0, 1⟩, onlyBlock .requested) := rfl

theorem pick_requested :
    (onlyBlock .requested).pickBlock ⟨1, [128]⟩ [1] 0 ⟨[], 0⟩ = (none, onlyBlock .requested) := rfl

theorem ask_flip (s : Session) (pieces : s.pieces = onlyBlock .missing)
    (peers : s.peers = onlyPeer pm { beggar queue bytes received handled enqueued with pending := [] }) :
    s.askPeer 0 { beggar queue bytes received handled enqueued with pending := [] } ⟨[], 0⟩ 0 =
      (true, { s with
        pieces := onlyBlock .requested
        peers := onlyPeer pm (beggar (queue ++ [again]) (bytes + 17) received handled
          (enqueued ++ [again])) }) := by
  have frequency : s.peers.pieceFrequency = [1] := by
    rw [peers]
    rfl
  have has : ({ beggar queue bytes received handled enqueued with pending := [] } : PeerConnection).hasPieces =
      ⟨1, [128]⟩ := rfl
  rw [askPeer, pieces, frequency, has, pick_missing, peers]
  rfl

theorem ask_again (s : Session) (pieces : s.pieces = onlyBlock .requested)
    (peers : s.peers = onlyPeer pm (beggar queue bytes received handled enqueued)) :
    s.askPeer 0 (beggar queue bytes received handled enqueued) ⟨[], 0⟩ 0 = (false, s) := by
  have frequency : s.peers.pieceFrequency = [1] := by
    rw [peers]
    rfl
  have has : (beggar queue bytes received handled enqueued).hasPieces = ⟨1, [128]⟩ := rfl
  rw [askPeer, pieces, frequency, has, pick_requested, ← pieces]

theorem fill_flip (s : Session) (pieces : s.pieces = onlyBlock .missing)
    (peers : s.peers = onlyPeer pm { beggar queue bytes received handled enqueued with pending := [] }) :
    s.fillAll flipFill =
      { s with
        pieces := onlyBlock .requested
        peers := onlyPeer pm (beggar (queue ++ [again]) (bytes + 17) received handled
          (enqueued ++ [again])) } := by
  have asked := ask_flip pm queue bytes received handled enqueued s pieces peers
  generalize asking : ({ s with
      pieces := onlyBlock .requested
      peers := onlyPeer pm (beggar (queue ++ [again]) (bytes + 17) received handled
        (enqueued ++ [again])) } : Session) = after at asked ⊢
  have later : after.peers = onlyPeer pm (beggar (queue ++ [again]) (bytes + 17) received
      handled (enqueued ++ [again])) := by rw [← asking]
  have refused := ask_again pm _ _ _ _ _ after (by rw [← asking]) later
  have found : s.peers.conns.find? 0 = some { beggar queue bytes received handled enqueued with pending := [] } := by
    rw [peers]
    rfl
  have present : after.peers.conns.find? 0 = some (beggar (queue ++ [again]) (bytes + 17)
      received handled (enqueued ++ [again])) := by
    rw [later]
    rfl
  have ids : s.peers.conns.arrange flipFill.order = [0] := by
    rw [peers]
    rfl
  have still : after.peers.conns.arrange flipFill.snubbedOrder = [0] := by
    rw [later]
    rfl
  have filled : fillOne flipFill s 0 = after := by
    simp only [fillOne, found, beggar, Bool.false_eq_true, or_self, if_false, kPipelineDepth]
    rw [fillPeer, found]
    dsimp only [flipFill]
    rw [if_pos (by decide), asked]
    dsimp only
    have space : (beggar (queue ++ [again]) (bytes + 17) received handled
        (enqueued ++ [again])).pending.length < kPipelineDepth := show 1 < 32 by decide
    rw [fillPeer, present]
    dsimp only [flipFill]
    rw [if_pos space, refused]
  have healthy : fillSnubbed flipFill after 0 = after := by
    simp only [fillSnubbed, present, beggar, Bool.false_eq_true, true_or, or_true, if_true]
  simp only [fillAll, ids, List.foldl_cons, List.foldl_nil, filled, still, healthy]

end Lap

/-- The session after so many queued bytes for the only peer, which has taken none of them. -/
def Begged (bytes : Nat) (sys : Sys) : Prop :=
  sys.phase = .polling ∧ sys.session.pieces = onlyBlock .requested ∧
    ∃ pm first queue received handled enqueued, pm.promoted = 1 ∧
      sys.session.peers = onlyPeer pm (beggar (first :: queue) bytes received handled enqueued)

/-- A round of `Choke` and `Unchoke` puts one more request in the queue. -/
theorem Begged.lap {bytes : Nat} {sys : Sys} (begged : Begged bytes sys) :
    ∃ last, Transition.run (step spotDigest wholeKernel) sys flipRound = some last ∧ Begged (bytes + 17) last := by
  obtain ⟨polling, requested, pm, first, queue, received, handled, enqueued, one, only⟩ := begged
  have polled := poll_flip pm first queue bytes received handled enqueued sys.session only
  have choked : ({ sys.session with
      peers := onlyPeer (indexed pm) (flipped first queue bytes received handled enqueued) } : Session).dispatch
        spotDigest wholeKernel (fun _ => []) (.choke 0 [⟨0, 0, 1⟩]) =
      .ok { sys.session with
        pieces := onlyBlock .missing
        peers := onlyPeer (indexed pm) (flipped first queue bytes received handled enqueued) } := by
    simp only [dispatch, dispatchOther, requested]
    rfl
  generalize asked : ({ sys.session with
      pieces := onlyBlock .missing
      peers := onlyPeer (indexed pm) (flipped first queue bytes received handled enqueued) } : Session) =
        free at choked
  have missing : free.pieces = onlyBlock .missing := by rw [← asked]
  have peers : free.peers = onlyPeer (indexed pm) (flipped first queue bytes received handled enqueued) := by
    rw [← asked]
  have unchoked : free.dispatch spotDigest wholeKernel (fun _ => []) (.unchoke 0) = .ok free := rfl
  have settled : free.settleRound quietEnv [] 0 [] = free := by
    have incomplete : free.pieces.isComplete = false := by
      rw [missing]
      rfl
    have ids : free.peers.conns.arrange [] = [0] := by
      rw [peers]
      rfl
    have found : free.peers.conns.find? 0 = some (flipped first queue bytes received handled enqueued) := by
      rw [peers]
      rfl
    have expired : free.expirePeer (0 - kRequestTimeout) 0 = free := by
      rw [expirePeer, found]
      rfl
    simp only [settleRound, addFresh, if_true, expireAll, ids, List.foldl_cons, List.foldl_nil, expired,
      noteCompletion,
      incomplete, Bool.false_eq_true, false_and, if_false]
  have filled := fill_flip (indexed pm) (first :: queue) bytes (received ++ flip) (handled ++ [[0]] ++ [[1]])
    enqueued free
    missing peers
  have ran : Transition.run (step spotDigest wholeKernel) sys flipRound = some
      ⟨free.fillAll flipFill, .polling,
        sys.deliveries ++ [], sys.filed ++ [] ++ []⟩ := by
    have round : arrives 1 (ascii "h") flip = .poll [] (fun i => if i = 1 then pollIn else 0) flipEnv := rfl
    simp only [flipRound, roundEnd, round, List.cons_append, List.nil_append, Transition.run, step, polling, polled,
      Option.bind_some, choked, unchoked, settled]
    rfl
  refine ⟨_, ran, rfl, ?_, indexed pm, first, queue ++ [again], received ++ flip,
    handled ++ [[0]] ++ [[1]], enqueued ++ [again], one, ?_⟩
  · dsimp only
    rw [filled]
  · dsimp only
    rw [filled]
    rfl

def asked : List Bytes :=
  [[0, 0, 0, 2, 5, 0], Message.bytes .unchoke, Message.bytes .interested, again]

def welcomed : PeerConnection :=
  let hello := Wire.buildHandshake oneByteWanted (List.replicate 20 7)
  beggar (hello :: asked) 101
    (Wire.buildHandshake oneByteWanted (List.replicate 20 8) ++ [0, 0, 0, 2, 5, 128, 0, 0, 0, 1, 1]) [[5, 128], [1]]
    (hello :: asked)

theorem rehearsed_beggar :
    (rehearse spotDigest oneByteWanted (welcome oneByteWanted (ascii "h"))).map (fun sys => decide
      (sys.phase = .polling ∧
        (sys.session.pieces.torrent = oneByteWanted ∧ sys.session.pieces.pieceCount = 1 ∧
          sys.session.pieces.have_ = ⟨1, [0]⟩ ∧ sys.session.pieces.haveBytes = 0 ∧ sys.session.pieces.haveCount = 0 ∧
          sys.session.pieces.active.entries = (onlyBlock .requested).active.entries) ∧
        sys.session.peers.promoted = 1 ∧ sys.session.peers.conns.entries = [(0, welcomed)] ∧
        sys.session.peers.inbound.length = 0 ∧ sys.session.peers.outbound.length = 0 ∧
        sys.session.peers.candidates = [] ∧ sys.session.peers.listenSock = some 3 ∧
        sys.session.peers.pieceFrequency = [1])) = some true := by
  decide +kernel

theorem onlyPeer_of_fields {pm : PeerManager} {c : PeerConnection} (conns : pm.conns.entries = [(0, c)])
    (inbound : pm.inbound.length = 0) (outbound : pm.outbound.length = 0) (candidates : pm.candidates = [])
    (listen : pm.listenSock = some 3) (frequency : pm.pieceFrequency = [1]) : pm = onlyPeer pm c := by
  obtain ⟨⟨entries, distinct⟩⟩ := pm
  dsimp only at conns candidates listen frequency
  subst conns candidates listen frequency
  rw [onlyPeer, PeerManager.mk.injEq]
  exact ⟨rfl, List.length_eq_zero_iff.mp inbound, List.length_eq_zero_iff.mp outbound, rfl, rfl, rfl, rfl,
    rfl, rfl, rfl,
    rfl, rfl, rfl, rfl, rfl, rfl, rfl⟩

theorem welcomed_begged : ∃ sys, Reached spotDigest wholeKernel oneByteWanted sys ∧ Begged 101 sys := by
  obtain ⟨sys, ran, holds⟩ := Option.map_eq_some_iff.mp rehearsed_beggar
  obtain ⟨polling, ⟨torrent, count, have_, bytes, pieces, active⟩, promoted, conns, inbound, outbound,
    candidates, listen,
    frequency⟩ := of_decide_eq_true holds
  have only := onlyPeer_of_fields conns inbound outbound candidates listen frequency
  refine ⟨sys, rehearse_reached ⟨_, oneByteWanted_accepted⟩ ran, polling, ?_, sys.session.peers, _, _, _,
    _, _, promoted,
    only⟩
  generalize sys.session.pieces = manager at torrent count have_ bytes pieces active ⊢
  obtain ⟨_, _, _, _, _, ⟨entries, distinct⟩⟩ := manager
  dsimp only at torrent count have_ bytes pieces active
  subst torrent count have_ bytes pieces active
  rfl

theorem begged_after (laps : Nat) :
    ∃ sys, Reached spotDigest wholeKernel oneByteWanted sys ∧ Begged (101 + 17 * laps) sys := by
  induction laps with
  | zero => exact welcomed_begged
  | succ laps ih =>
    obtain ⟨sys, reached, begged⟩ := ih
    obtain ⟨last, ran, longer⟩ := begged.lap
    exact ⟨last, reached.run ran, longer⟩

end Example

/-- A peer that never reads and, round after round, chokes and unchokes us is sent a new request every
time: there is no bound that its queue stays under. -/
theorem queue_unbounded : ¬ ∃ bound, ∀ sys c, Reached spotDigest wholeKernel oneByteWanted sys →
    sys.session.peers.promoted = 1 → sys.session.peers.conns.find? 0 = some c → c.sock.sent = [] →
    c.queuedBytes ≤ bound := by
  intro bounded
  obtain ⟨bound, most⟩ := bounded
  obtain ⟨sys, reached, -, -, pm, first, queue, received, handled, enqueued, one, only⟩ := begged_after bound
  have promoted : sys.session.peers.promoted = 1 := by
    rw [only]
    exact one
  have found : sys.session.peers.conns.find? 0 =
      some (beggar (first :: queue) (101 + 17 * bound) received handled enqueued) := by
    rw [only]
    rfl
  have small : 101 + 17 * bound ≤ bound := most sys _ reached promoted found rfl
  omega

end TorrentPeer.Session
