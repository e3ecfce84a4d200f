import TorrentPeer.Runtime.Asking
import TorrentPeer.Runtime.Beliefs

/-! Everything a session tells its peers is true and well formed: it announces only pieces it has, asks for
blocks, and sends only bytes of pieces it has verified. -/

namespace TorrentPeer.Session

open PeerManager PieceManager Wire Transition Torrent Splice

def Fit (t : TorrentFile) (pieces : PieceManager) (array : Bytes) : Message → Prop
  | .have_ index => pieces.have_.get index = true
  | .bitfield raw => ∃ field : Bitfield, raw = field.bytes ∧ field.bits = pieces.have_.bits ∧ field.Tidy ∧
      ∀ i, field.get i = true → pieces.have_.get i = true
  | .request req => req.pieceIndex < 2 ^ 32 ∧ req.offset < 2 ^ 32 ∧ req.length ≤ kBlockSize
  | .piece index offset data => index < 2 ^ 32 ∧ offset < 2 ^ 32 ∧ data.length ≤ kBlockSize ∧
      Genuine t pieces array (.piece index offset data)
  -- `send_choke` has no caller
  | .choke => False
  | _ => True

def Said (good : Message → Prop) (conns : Table Nat PeerConnection) : Prop :=
  ∀ id c, conns.find? id = some c → ∀ m ∈ c.enqueued, ∃ message : Message, m = message.bytes ∧ good message

section Said

variable {good : Message → Prop} {conns next : Table Nat PeerConnection} (said : Said good conns)

include said

theorem Said.grow (each : ∀ id c, next.find? id = some c → ∃ old, conns.find? id = some old ∧
    ∃ words : List Message, (∀ word ∈ words, good word) ∧ c.enqueued = old.enqueued ++ words.map Message.bytes) :
    Said good next := by
  intro id c found m member
  obtain ⟨old, present, words, fine, longer⟩ := each id c found
  rw [longer] at member
  rcases List.mem_append.mp member with before | new
  · exact said id old present m before
  · obtain ⟨word, inside, same⟩ := List.mem_map.mp new
    exact ⟨word, same.symm, fine word inside⟩

theorem Said.weaken {weaker : Message → Prop} (implies : ∀ message, good message → weaker message) :
    Said weaker conns := by
  intro id c found m member
  obtain ⟨message, same, fine⟩ := said id c found m member
  exact ⟨message, same, implies message fine⟩

theorem Said.modify (id : Nat) (change : PeerConnection → PeerConnection) (words : List Message)
    (fine : ∀ word ∈ words, good word) (longer : ∀ c, (change c).enqueued = c.enqueued ++ words.map Message.bytes) :
    Said good (conns.modify id change) := by
  refine said.grow ?_
  intro other c found
  obtain ⟨old, present, same | ⟨-, same⟩⟩ := find_modify_some found
  · exact ⟨old, present, [], by simp, by rw [same, List.map_nil, List.append_nil]⟩
  · exact ⟨old, present, words, fine, by rw [same, longer]⟩

theorem Said.erase (id : Nat) : Said good (conns.erase id) := by
  intro other c found
  rw [Table.find_erase] at found
  split at found
  · cases found
  · exact said other c found

end Said

theorem Said.acts {good : Message → Prop} {w next : World} (moves : Acts w next)
    (handshake : ∀ torrent peerId, good (.handshake torrent peerId)) (keepAlive : good .keepAlive)
    (said : Said good w.pm.conns) : Said good next.pm.conns := by
  have more : ∀ (c : PeerConnection) (word : Message), good word →
      (∀ m ∈ c.enqueued, ∃ message : Message, m = message.bytes ∧ good message) →
      ∀ m ∈ (c.enqueue word.bytes).enqueued, ∃ message : Message, m = message.bytes ∧ good message := by
    intro c word fine before m member
    rcases List.mem_append.mp member with old | new
    · exact before m old
    · exact ⟨word, List.mem_singleton.mp new, fine⟩
  refine acts_each moves ?_ ?_ ?_ said
  · intro pm sock peer now answers
    have silent : ∀ m ∈ (newcomer pm sock peer now false).enqueued,
      ∃ message : Message, m = message.bytes ∧ good message :=
      fun m member => absurd member List.not_mem_nil
    cases answers with
    | false => exact silent
    | true => exact more (newcomer pm sock peer now false) (.handshake pm.torrent pm.peerId) (handshake _ _) silent
  · intro c torrent peerId before
    exact more c (.handshake torrent peerId) (handshake _ _) before
  · intro c after before touch
    cases touch with
    | drain result now =>
      rw [drain_enqueued]
      exact before
    | receive chunk now => exact before
    | message rest id frequency out msg handled extracted effect =>
      rw [effect_enqueued effect]
      exact before
    | ping empty => exact more c .keepAlive keepAlive before

/-- The session's own pieces are well encoded, and it has said nothing but what fits. -/
structure Truthful (t : TorrentFile) (s : Session) : Prop where
  tidy : s.pieces.have_.Tidy
  said : Said (Fit t s.pieces (onDisk s.disk s.store)) s.peers.conns

section Moves

variable {sha1 : Bytes → Bytes} {kernel : Kernel} {t : TorrentFile} {s : Session}

theorem Fit.mono {pieces next : PieceManager} {array after : Bytes} (width : next.have_.bits = pieces.have_.bits)
    (kept : ∀ i, pieces.have_.get i = true →
      next.have_.get i = true ∧ pieceBytes t after i = pieceBytes t array i)
    (message : Message) (fit : Fit t pieces array message) : Fit t next after message := by
  cases message with
  | have_ index => exact (kept index fit).1
  | bitfield raw =>
    obtain ⟨field, bytes, bits, tidy, part⟩ := fit
    exact ⟨field, bytes, bits.trans width.symm, tidy, fun i set => (kept i (part i set)).1⟩
  | piece index offset data =>
    obtain ⟨low, start, short, genuine⟩ := fit
    exact ⟨low, start, short, genuine.mono kept _⟩
  | request req => exact fit
  | choke => exact fit
  | _ => trivial

theorem Truthful.states (truthful : Truthful t s) {pieces : PieceManager} (same : pieces.have_ = s.pieces.have_)
    {conns : Table Nat PeerConnection} (said : Said (Fit t s.pieces (onDisk s.disk s.store)) conns) :
    pieces.have_.Tidy ∧ Said (Fit t pieces (onDisk s.disk s.store)) conns := by
  refine ⟨by rw [same]; exact truthful.tidy, said.weaken ?_⟩
  exact Fit.mono (by rw [same]) (fun i held => ⟨by rw [same]; exact held, rfl⟩)

theorem Truthful.joined (truthful : Truthful t s) (id : Nat) : Truthful t (s.onJoined id) := by
  have fit : Fit t s.pieces (onDisk s.disk s.store) (.bitfield s.pieces.have_.bytes) :=
    ⟨s.pieces.have_, rfl, rfl, truthful.tidy, fun _ held => held⟩
  have said : Said (Fit t s.pieces (onDisk s.disk s.store)) (s.onJoined id).peers.conns := by
    rw [onJoined_peers]
    refine truthful.said.modify id _ (.bitfield s.pieces.have_.bytes :: .unchoke ::
      if s.pieces.isComplete = true then [] else [.interested]) ?_ ?_
    · intro word member
      rcases List.mem_cons.mp member with first | later
      · rw [first]
        exact fit
      · rcases List.mem_cons.mp later with second | third
        · rw [second]
          trivial
        · split at third
          · cases third
          · rw [List.mem_singleton.mp third]
            trivial
    · intro c
      cases complete : s.pieces.isComplete <;> simp [greeted, PeerConnection.enqueue]
  exact ⟨truthful.tidy, said⟩

theorem Truthful.served (geometry : Geometry t) (sound : Sound sha1 t s.pieces s.disk s.store)
    (truthful : Truthful t s)
    {id : Nat} {req : BlockRequest} {next : Session} (typed : RequestTyped (.request id req))
    (served : s.onRequest kernel id req = .ok next) : Truthful t next := by
  obtain ⟨index, offset, short⟩ := typed
  cases serve_cases geometry sound id req next ⟨index, offset, short⟩ served with
  | ignored read same =>
    have kept : onDisk s.disk read = onDisk s.disk s.store := by rw [onDisk, onDisk, same]
    exact ⟨truthful.tidy, by dsimp only; rw [kept]; exact truthful.said⟩
  | sent read same held space inside count =>
    have kept : onDisk s.disk read = onDisk s.disk s.store := by rw [onDisk, onDisk, same]
    have there := sound.valid.inside req.pieceIndex (sound.valid.bits ▸ Bitfield.get_inside _ _ held)
    have width : (slice (pieceBytes t (onDisk s.disk s.store) req.pieceIndex) req.offset req.length).length =
        req.length := by
      apply slice_length
      rw [pieceBytes, slice_length _ _ _ (by rw [sound.width]; exact geometry.piece_end _ there)]
      exact inside
    refine ⟨truthful.tidy, ?_⟩
    dsimp only
    rw [kept]
    refine truthful.said.modify id _ [.piece req.pieceIndex req.offset
      (slice (pieceBytes t (onDisk s.disk s.store) req.pieceIndex) req.offset req.length)] ?_ (fun _ => rfl)
    intro word member
    rw [List.mem_singleton.mp member]
    refine ⟨index, offset, ?_, held, ?_, ?_⟩
    · rw [width]
      exact short
    · rw [width]
      exact inside
    · rw [width]

theorem Truthful.judged (geometry : Geometry t) (narrow : t.pieces.length % 2 ^ 32 < 2 ^ 32 - 7)
    (sound : Sound sha1 t s.pieces s.disk s.store) (truthful : Truthful t s) {id : Nat} {block : Block}
    {result : BlockResult} {hosts : List Bytes} {judged : Session}
    (outcome : Judged sha1 kernel s id block result hosts judged) : Truthful t judged := by
  have kept := outcome.kept geometry sound
  have valid := (sound.judged geometry outcome).valid
  have width : judged.pieces.have_.bits = s.pieces.have_.bits := by
    rw [valid.bits, valid.pieceCount, sound.valid.bits, sound.valid.pieceCount]
  have before := truthful.said.weaken (Fit.mono width kept)
  cases outcome with
  | rejected count piece => exact ⟨truthful.tidy, before⟩
  | incomplete count pp b pieces fits ruled =>
    cases ruled
    exact ⟨truthful.tidy, before⟩
  | failed count pp b pieces piece fits ruled =>
    cases ruled
    exact ⟨truthful.tidy, before⟩
  | verified count pp b pieces piece written fits ruled stored =>
    cases ruled with
    | verified _ full right marked =>
      obtain ⟨-, -, -, bits⟩ := PieceManager.markHave_valid
        (PieceManager.erase_valid sound.valid block.pieceIndex) block.pieceIndex fits.counted
        fits.wanted (by simp) marked
      obtain ⟨field, set, rest⟩ := bind_ok marked
      refine ⟨?_, ?_⟩
      · cases rest
        refine truthful.tidy.set ?_ set
        rw [sound.valid.bits, sound.valid.pieceCount]
        exact narrow
      · refine before.grow ?_
        intro other c found
        rw [broadcastHave, Table.find_update] at found
        obtain ⟨old, present, same⟩ := Option.map_eq_some_iff.mp found
        refine ⟨old, present, [.have_ block.pieceIndex], ?_, by rw [← same]; rfl⟩
        intro word member
        rw [List.mem_singleton.mp member]
        show pieces.have_.get block.pieceIndex = true
        rw [bits, decide_eq_true rfl, Bool.true_or]

theorem Truthful.quiet (geometry : Geometry t) (narrow : t.pieces.length % 2 ^ 32 < 2 ^ 32 - 7) {f next : Flow}
    (custody : Custody sha1 t f) (truthful : Truthful t f.session) (move : Quiet sha1 kernel f next) :
    Truthful t next.session := by
  cases move with
  | build order => exact ⟨truthful.tidy, truthful.said⟩
  | round order revents env idle =>
    have acts := (pollRound_acts order revents env custody.room).1
    exact ⟨truthful.tidy, Said.acts acts (fun _ _ => trivial) trivial truthful.said⟩
  | dial env fresh =>
    have apart := addPeers_apart env f.session.peers fresh
    exact ⟨truthful.tidy, by dsimp only; rw [apart.conns]; exact truthful.said⟩
  | complete => exact ⟨truthful.tidy, truthful.said⟩
  | release event rest reqs front gives =>
    obtain ⟨tidy, said⟩ := truthful.states (release_have f.session.pieces reqs) truthful.said
    exact ⟨tidy, said⟩
  | join id rest front => exact truthful.joined id
  | serve id req rest session front served =>
    have typed := custody.typed (.request id req) (by rw [front]; exact List.mem_cons_self ..)
    exact truthful.served geometry custody.sound typed served
  | file id block rest result taken judged hosts front idle took verdict =>
    exact truthful.judged geometry narrow custody.sound
      (judge_cases sha1 kernel f.session taken judged id block result hosts took verdict)
  | convict host hosts listed => exact ⟨truthful.tidy, truthful.said⟩
  | expel id c found =>
    obtain ⟨tidy, said⟩ := truthful.states (release_have f.session.pieces (requestsOf c.pending))
      (truthful.said.erase id)
    refine ⟨tidy, ?_⟩
    rw [expel_conns id c found]
    exact said
  | expire id c cutoff found =>
    obtain ⟨tidy, said⟩ := truthful.states (release_have f.session.pieces (takeStale c.pending cutoff).1)
      (truthful.said.modify id (fun c => { c with pending := (takeStale c.pending cutoff).2, snubbed := true }) []
        (by simp) (fun _ => (List.append_nil _).symm))
    exact ⟨tidy, said⟩

theorem Truthful.ask (geometry : Geometry t) {f : Flow} {next : Session} (custody : Custody sha1 t f)
    (truthful : Truthful t f.session) (ask : Ask f.session next) : Truthful t next := by
  cases ask with
  | ask id c choice now req pieces found unchoked slot picked =>
    obtain ⟨opened, pp, b, pick⟩ := PieceManager.pickBlock_some geometry custody.sound.valid _ _ _ _ _ _ picked
    obtain ⟨index, offset, -⟩ := picked_small geometry custody picked
    have short : req.length ≤ kBlockSize := by
      rw [pick.request]
      exact Nat.min_le_left _ _
    have said := truthful.said.modify id (fun c =>
      { c with pending := c.pending ++ [PendingRequest.mk req now] }.enqueue
      (Message.bytes (.request req))) [.request req] (by
        intro word member
        rw [List.mem_singleton.mp member]
        exact ⟨index, offset, short⟩) (fun _ => rfl)
    obtain ⟨tidy, after⟩ := truthful.states pick.same_have said
    exact ⟨tidy, after⟩
  | decline id c choice pieces picked =>
    have same := PieceManager.pickBlock_none geometry custody.sound.valid _ _ _ _ _ picked
    subst same
    exact truthful

theorem recheckAll_tidy (narrow : t.pieces.length % 2 ^ 32 < 2 ^ 32 - 7) {disk : DiskManager} (rest : List Nat)
    {pieces last : PieceManager} {store read : Store} (width : pieces.have_.bits = t.pieces.length % 2 ^ 32)
    (tidy : pieces.have_.Tidy) (checked : recheckAll sha1 kernel disk t rest pieces store = .ok (last, read)) :
    last.have_.Tidy := by
  induction rest generalizing pieces store with
  | nil =>
    cases checked
    exact tidy
  | cons i rest ih =>
    rw [recheckAll] at checked
    split at checked
    · cases checked
    · obtain ⟨next, one, others⟩ := bind_ok checked
      unfold recheck at one
      split at one
      · obtain ⟨field, set, same⟩ := bind_ok one
        cases same
        refine ih ?_ ?_ others
        · exact (Bitfield.set_bits _ _ _ set).1.trans width
        · refine tidy.set ?_ set
          rw [width]
          exact narrow
      · cases one
        exact ih width tidy others

theorem begins_truthful (narrow : t.pieces.length % 2 ^ 32 < 2 ^ 32 - 7) {sys : Sys}
    (begins : Begins sha1 kernel t sys) :
    Truthful t sys.session := by
  have empty := (begins_fresh begins).conns
  refine ⟨?_, ?_⟩
  · obtain ⟨-, ⟨peerId, listenSock, downloadDir, initialPeers, env, store, created⟩, -⟩ := begins
    unfold create at created
    split at created
    · cases created
    · obtain ⟨peers, -, onward⟩ := bind_ok created
      obtain ⟨⟨pieces, read⟩, checked, same⟩ := bind_ok onward
      rw [← Except.ok.inj same]
      exact recheckAll_tidy narrow _ rfl (Bitfield.ofBits_tidy _ narrow) checked
  · intro id c found
    rw [empty] at found
    cases found

theorem reached_truthful (narrow : t.pieces.length % 2 ^ 32 < 2 ^ 32 - 7) {sys : Sys}
    (reached : Reached sha1 kernel t sys) :
    Truthful t sys.session := by
  have geometry := reached_geometry reached
  have both : Custody sha1 t sys.flow ∧ Truthful t sys.flow.session := by
    refine reached_invariant (fun f => Custody sha1 t f ∧ Truthful t f.session) ?_ ?_ ?_ reached
    · intro sys begins
      exact ⟨reached_custody (.start sys begins), begins_truthful narrow begins⟩
    · intro f next before move
      exact ⟨before.1.quiet geometry move, before.2.quiet geometry narrow before.1 move⟩
    · intro f next before ask
      exact ⟨before.1.ask geometry ask, before.2.ask geometry before.1 ask⟩
  exact both.2

def Welcomed (c : PeerConnection) : Prop := c.amChoking = false → Message.bytes .unchoke ∈ c.enqueued

theorem Welcomed.grow {c after : PeerConnection} (welcomed : Welcomed c) (same : after.amChoking = c.amChoking)
    (more : c.enqueued <+: after.enqueued) : Welcomed after := by
  intro unchoked
  rw [same] at unchoked
  exact more.subset (welcomed unchoked)

theorem Alters.welcomed {c after : PeerConnection} (welcomed : Welcomed c) (alters : Alters c after) :
    Welcomed after := by
  cases alters with
  | touch _ touched =>
    cases touched with
    | drain result now =>
      obtain ⟨_, _, _, _, _, shape⟩ := c.drain_shape result now
      rw [shape]
      exact welcomed
    | receive chunk now => exact welcomed
    | message rest id frequency out msg handled extracted effect =>
      cases effect with
      | cancelled index offset length =>
        obtain ⟨_, _, shape⟩ := PeerConnection.removeQueuedPiece_shape
          { c with readBuffer := rest, handled := c.handled ++ [msg] } index offset length
        rw [shape]
        exact welcomed
      | _ => exact welcomed
    | ping empty => exact welcomed.grow rfl (List.prefix_append _ _)
  | answer torrent peerId => exact welcomed.grow rfl (List.prefix_append _ _)
  | greet have_ complete =>
    intro _
    cases complete <;> simp [greeted, PeerConnection.enqueue]
  | serve index offset data space short => exact welcomed.grow rfl (List.prefix_append _ _)
  | announce index => exact welcomed.grow rfl (List.prefix_append _ _)
  | expire cutoff => exact welcomed

theorem reached_welcomed {sys : Sys} (reached : Reached sha1 kernel t sys) {id : Nat} {c : PeerConnection}
    (found : sys.session.peers.conns.find? id = some c) : Welcomed c := by
  have geometry := reached_geometry reached
  have both : Custody sha1 t sys.flow ∧ ∀ id c, sys.flow.session.peers.conns.find? id = some c → Welcomed c := by
    refine reached_invariant (fun f => Custody sha1 t f ∧
      ∀ id c, f.session.peers.conns.find? id = some c → Welcomed c) ?_ ?_ ?_ reached
    · intro sys begins
      refine ⟨reached_custody (.start sys begins), ?_⟩
      intro id c present
      have empty : sys.flow.session.peers.conns = Table.empty := (begins_fresh begins).conns
      rw [empty] at present
      cases present
    · intro f next before move
      refine ⟨before.1.quiet geometry move, ?_⟩
      intro id c present
      refine (move.descends geometry before.1 id c present).preserves ?_ (fun _ _ => Alters.welcomed) (before.2 id)
      intro pm sock peer now answers unchoked
      cases answers <;> cases unchoked
    · intro f next before ask
      refine ⟨before.1.ask geometry ask, ?_⟩
      cases ask with
      | ask id c choice now req pieces there unchoked slot picked =>
        intro other after present
        obtain ⟨old, located, same | ⟨-, same⟩⟩ := find_modify_some present
        · rw [same]
          exact before.2 other old located
        · rw [same]
          exact (before.2 other old located).grow rfl (List.prefix_append _ _)
      | decline id c choice pieces picked => exact before.2
  exact both.2 id c found

end Moves

end TorrentPeer.Session
