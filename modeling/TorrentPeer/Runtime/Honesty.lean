import TorrentPeer.Runtime.Answers
import TorrentPeer.Runtime.Workload

/-! A host whose bytes all come from a client of this kind sends no wrong block, and is never banned. -/

namespace TorrentPeer.PeerManager

open Wire BigEndian Transition

def blockOf : Bytes → Option Block
  | [] => none
  | id :: payload =>
    if id = msgPiece ∧ 8 ≤ payload.length then
      some ⟨readBe32 payload, readBe32 (payload.drop 4), payload.drop 8⟩
    else none

section Messages

variable (c : PeerConnection) (frequency : List Nat)

theorem handle_blockless (peer : Nat) {kind : UInt8} (other : kind ≠ msgPiece) (payload : Bytes) (id : Nat)
    (block : Block) : .piece id block ∉ (c.handle peer frequency [] (kind :: payload)).out := by
  simp only [PeerConnection.handle, if_neg other]
  split
  · simp [PeerConnection.onChoke]
  split
  · simp
  split
  · simp
  split
  · simp
  split
  · simp [onHave_out]
  split
  · simp [onBitfield_out]
  split
  · unfold PeerConnection.onRequest
    dsimp only
    split
    · simp
    split
    · simp
    split <;> simp
  split
  · unfold PeerConnection.onCancel
    dsimp only
    split
    · simp
    split <;> simp
  · simp

theorem handle_blockOf (peer : Nat) (msg : Bytes) {id : Nat} {block : Block}
    (member : .piece id block ∈ (c.handle peer frequency [] msg).out) : id = peer ∧ blockOf msg = some block := by
  cases msg with
  | nil => exact absurd member List.not_mem_nil
  | cons kind payload =>
    by_cases piece : kind = msgPiece
    · rw [piece, PeerConnection.handle_piece, PeerConnection.onPiece] at member
      split at member
      · exact absurd member List.not_mem_nil
      · rename_i long
        dsimp only at member
        split at member
        · exact absurd member List.not_mem_nil
        · obtain ⟨same, carries⟩ := PeerEvent.piece.inj (List.mem_singleton.mp member)
          exact ⟨same, by rw [blockOf, if_pos ⟨piece, Nat.le_of_not_lt long⟩, carries]⟩
    · exact absurd member (handle_blockless c frequency peer piece payload id block)

theorem blockOf_piece {index offset : Nat} (data : Bytes) (low : index < 2 ^ 32) (start : offset < 2 ^ 32) :
    blockOf (body (Message.bytes (.piece index offset data))) = some ⟨index, offset, data⟩ := by
  have width : 8 ≤ (be32 index ++ be32 offset ++ data).length := by
    rw [List.length_append, List.length_append, be32_length, be32_length]
    omega
  have later : (be32 index ++ be32 offset ++ data).drop 4 = be32 offset ++ data := by
    rw [List.append_assoc]
    exact List.drop_left' (be32_length index)
  have last : (be32 index ++ be32 offset ++ data).drop 8 = data := by
    apply List.drop_left'
    rw [List.length_append, be32_length, be32_length]
  rw [Message.bytes, body_buildMessage, blockOf, if_pos ⟨rfl, width⟩, later, last, List.append_assoc,
    readBe32_append index low, readBe32_append offset start]

end Messages

/-- A message was taken from a connection that has read these bytes. -/
structure Overheard (pm : PeerManager) (stream : Bytes) (x : Call) : Prop where
  heard : Heard pm x.conn
  taken : x.msg ∈ x.conn.handled
  received : x.conn.sock.received = stream

def Follows (env : Env) (manager : PeerManager) (x : Call) : Prop :=
  ∃ c bytes, manager.conns.find? x.id = some c ∧ env.recv c.sock.fd = .data bytes ∧
    ∀ pm, Heard pm c → Overheard pm (c.sock.received ++ bytes.take 16384) x

section Calls

variable {manager : PeerManager} {id : Nat} {c : PeerConnection} {out : List PeerEvent} {x : Call}

theorem nextCall_overheard (next : nextCall manager out id = some x) :
    x.id = id ∧ ∃ c, manager.conns.find? id = some c ∧ ∀ pm, Heard pm c → Overheard pm c.sock.received x := by
  obtain ⟨c, msg, rest, found, extracted, rfl⟩ := nextCall_some next
  refine ⟨rfl, c, found, fun pm heard => ⟨heard.message extracted, ?_, rfl⟩⟩
  exact List.mem_append_right _ (List.mem_singleton_self msg)

theorem readCalls_overheard (fuel : Nat) (found : manager.conns.find? id = some c) :
    ∀ x ∈ readCalls id fuel manager out, x.id = id ∧ ∀ pm, Heard pm c → Overheard pm c.sock.received x := by
  induction fuel generalizing manager out c with
  | zero => exact fun x member => absurd member List.not_mem_nil
  | succ fuel ih =>
    intro x member
    rw [readCalls] at member
    cases next : nextCall manager out id with
    | none =>
      rw [next] at member
      exact absurd member List.not_mem_nil
    | some first =>
      obtain ⟨own, old, present, overheard⟩ := nextCall_overheard next
      rw [found] at present
      cases present
      rw [next] at member
      dsimp only at member
      cases thrown : first.result.thrown with
      | none =>
        rw [thrown] at member
        rcases List.mem_cons.mp member with here | later
        · rw [here]
          exact ⟨own, overheard⟩
        · have left : (first.settled manager).conns.find? id = some first.result.conn := by
            rw [Call.settled, Table.find_modify, if_pos own.symm, found, Option.map_some]
          have same : SameReading first.conn first.result.conn :=
            effect_reading (PeerConnection.handle_effect first.conn first.id first.frequency first.out first.msg)
          obtain ⟨also, rest⟩ := ih left x later
          refine ⟨also, fun pm heard => ?_⟩
          have now := overheard pm heard
          rw [← now.received, ← same.received]
          exact rest pm (now.heard.same same)
      | some problem =>
        rw [thrown] at member
        rw [List.mem_singleton.mp member]
        exact ⟨own, overheard⟩

theorem serveCalls_follow (env : Env) (rev : Nat) :
    ∀ x ∈ serveCalls env manager id rev out, x.id = id ∧ Follows env manager x := by
  intro x member
  unfold serveCalls at member
  split at member
  · exact absurd member List.not_mem_nil
  cases found : manager.conns.find? id with
  | none =>
    rw [found] at member
    exact absurd member List.not_mem_nil
  | some c =>
    rw [found] at member
    dsimp only at member
    generalize drains : (if writable rev = true then c.drain (env.send c.sock.fd) (env.clock (.drain c.sock.fd))
      else (c, false)) = result at member
    obtain ⟨drained, failed⟩ := result
    have same : SameReading c drained ∧ drained.sock.fd = c.sock.fd := by
      split at drains
      · have left : (c.drain (env.send c.sock.fd) (env.clock (.drain c.sock.fd))).1 = drained :=
          congrArg Prod.fst drains
        obtain ⟨_, _, _, _, _, shape⟩ := c.drain_shape (env.send c.sock.fd) (env.clock (.drain c.sock.fd))
        rw [← left]
        exact ⟨drain_reading c _ _, by rw [shape]⟩
      · rw [← (Prod.mk.inj drains).1]
        exact ⟨SameReading.refl c, rfl⟩
    dsimp only at member
    split at member
    · exact absurd member List.not_mem_nil
    split at member
    · exact absurd member List.not_mem_nil
    unfold connectionCalls at member
    split at member
    · rename_i bytes ready
      dsimp only at member
      split at member
      · exact absurd member List.not_mem_nil
      · obtain ⟨own, overheard⟩ := readCalls_overheard _ (by
          rw [Table.find_modify, if_pos rfl, Table.find_modify, if_pos rfl, found, Option.map_some, Option.map_some])
          x member
        refine ⟨own, c, bytes, by rw [own, found], by rw [← same.2, ready], fun pm heard => ?_⟩
        have more := (heard.same same.1).receive (bytes.take 16384) (env.clock (.receive drained.sock.fd))
        rw [← same.1.received]
        exact overheard pm more
    · exact absurd member List.not_mem_nil

theorem loopCalls_follow (env : Env) (pfds : List PollFd) (ids : List Nat) (at_ : Nat) (distinct : ids.Nodup) :
    ∀ x ∈ loopCalls env pfds ids at_ manager out, x.id ∈ ids ∧ Follows env manager x := by
  induction ids generalizing at_ manager out with
  | nil => exact fun x member => absurd member List.not_mem_nil
  | cons first ids ih =>
    obtain ⟨outside, apart⟩ := List.nodup_cons.mp distinct
    intro x member
    rw [loopCalls] at member
    rcases List.mem_append.mp member with here | later
    · obtain ⟨own, follows⟩ := serveCalls_follow env (reventsAt pfds at_) x here
      exact ⟨by rw [own]; exact List.mem_cons_self .., follows⟩
    · -- the first connection's turn left this one as it was
      obtain ⟨listed, c, bytes, found, ready, overheard⟩ := ih (at_ + 1) apart x later
      have different : x.id ≠ first := fun same => outside (same ▸ listed)
      have before : manager.conns.find? x.id = some c :=
        (serveConnection_others env (reventsAt pfds at_) different).symm.trans found
      exact ⟨List.mem_cons_of_mem _ listed, c, bytes, before, ready, overheard⟩

end Calls

section Rounds

variable (env : Env) (pfds : List PollFd) {pm : PeerManager} {id : Nat} {c : PeerConnection}

theorem admitted_reading (room : Room pm) (found : pm.conns.find? id = some c) :
    ∃ after, (admitted env pfds pm).pm.conns.find? id = some after ∧ SameReading c after ∧
      after.sock.fd = c.sock.fd := by
  have step : ∀ state next a, Act.Joins env pm a →
      (∃ d, state.pm.conns.find? id = some d ∧ SameReading c d ∧ d.sock.fd = c.sock.fd) →
      act state a = some next →
      ∃ d, next.pm.conns.find? id = some d ∧ SameReading c d ∧ d.sock.fd = c.sock.fd := by
    intro state next a joins before moved
    obtain ⟨⟨own, -⟩, waiting, -⟩ := joins
    obtain ⟨d, present, same, socket⟩ := before
    have keeps : Keeps id a := by
      cases a with
      | drop other => exact absurd trivial waiting
      | send other message now => cases own
      | _ => trivial
    obtain ⟨after, located, -⟩ := act_queues keeps present moved
    refine ⟨after, located, ?_⟩
    rcases act_connection own moved located with ⟨old, here, change⟩ | ⟨absent, -⟩
    · rw [present] at here
      cases here
      rcases change with equal | ⟨serving, -⟩ | ⟨-, equal⟩
      · rw [equal]
        exact ⟨same, socket⟩
      · exact absurd serving waiting
      · rw [equal]
        exact ⟨⟨same.peer, same.received, same.handled, same.buffer⟩, socket⟩
    · rw [absent] at present
      cases present
  exact Reaches.preserves step (admitted_joins env pfds pm room).1 ⟨c, found, SameReading.refl c, rfl⟩

/-- The messages of a round come from connections that have read one chunk more than before it. -/
theorem roundCalls_overheard (listening : Listening pm) (room : Room pm)
    (found : pm.conns.find? id = some c) {x : Call}
    (member : x ∈ roundCalls env pfds pm) (own : x.id = id) :
    ∃ bytes, env.recv c.sock.fd = .data bytes ∧ Overheard pm (c.sock.received ++ bytes.take 16384) x := by
  obtain ⟨after, present, same, socket⟩ := admitted_reading env pfds room found
  obtain ⟨-, old, bytes, located, ready, overheard⟩ := loopCalls_follow env pfds _ _
    (admitted_orderly env pfds listening.orderly).distinct x member
  rw [own, present] at located
  cases located
  refine ⟨bytes, by rw [← socket, ready], ?_⟩
  rw [← same.received]
  exact overheard pm ((listening.heard id c found).same same)

/-- Every block a round returns is in one of its messages. -/
theorem handleEvents_blockOf {block : Block} (member : .piece id block ∈ (handleEvents env pfds pm).2) :
    ∃ x ∈ roundCalls env pfds pm, x.id = id ∧ blockOf x.msg = some block := by
  have dropped := dropAll_dropped (servePass env pfds pm).1
    ((servePass env pfds pm).2.2 ++ idlePeers (servePass env pfds pm).1 env.order (env.clock .sweep))
  have returned : (handleEvents env pfds pm).2 = (servePass env pfds pm).2.1 ++
      ((servePass env pfds pm).1.dropAll [] ((servePass env pfds pm).2.2 ++
        idlePeers (servePass env pfds pm).1 env.order (env.clock .sweep))).2 := (dropAll_out _ _ _).2
  rw [returned] at member
  rcases List.mem_append.mp member with served | gone
  · have listed := (servePass_hears env pfds pm).sublist.subset served
    rcases List.mem_append.mp listed with joined | pushed
    · obtain ⟨known, admission⟩ := admitted_turns env pfds pm
      rw [admission.out] at joined
      simp at joined
    · obtain ⟨x, called, pushes⟩ := List.mem_flatMap.mp pushed
      obtain ⟨same, brings⟩ := handle_blockOf x.conn x.frequency x.id x.msg pushes
      exact ⟨x, called, same.symm, brings⟩
  · obtain ⟨other, reqs, same⟩ := dropped _ gone
    cases same

end Rounds

end TorrentPeer.PeerManager

namespace TorrentPeer.Session

open PeerManager PeerConnection PieceManager Wire Transition Torrent Splice

/-- On one of its connections some client of the torrent, which has cut no handshake short, has sent these bytes
before any others. -/
def SentByClient (sha1 : Bytes → Bytes) (t : TorrentFile) (bytes : Bytes) : Prop :=
  ∃ kernel first i a, ReachableWithin (step sha1 kernel) (Begins sha1 kernel t) HailsWhole first ∧
    first.session.peers.promoted < 2 ^ 32 ∧ first.session.peers.conns.find? i = some a ∧ bytes <+: a.sock.sent

/-- Whatever an established connection to an honest host receives in this input, a client has sent. -/
def HearsClients (sha1 : Bytes → Bytes) (t : TorrentFile) (honest : Bytes → Prop) (sys : Sys) : Input → Prop
  | .poll _ _ env => ∀ j b bytes, sys.session.peers.conns.find? j = some b → honest b.peer.host →
      env.recv b.sock.fd = .data bytes → SentByClient sha1 t (b.sock.received ++ bytes.take 16384)
  | _ => True

section Sending

variable {sha1 : Bytes → Bytes} {kernel : Kernel} {t : TorrentFile} {content : Bytes}

theorem Reference.held (geometry : Geometry t) (reference : Reference sha1 t content) {s : Session}
    (sound : Sound sha1 t s.pieces s.disk s.store) {index : Nat} (held : s.pieces.have_.get index = true) :
    pieceBytes t (onDisk s.disk s.store) index = pieceBytes t content index := by
  have inside := sound.valid.inside index (sound.valid.bits ▸ Bitfield.get_inside _ _ held)
  apply reference.only index inside
  · exact slice_length _ _ _ (by rw [sound.width]; exact geometry.piece_end index inside)
  · rw [← sound.verified index held]
    exact verify_congr sha1 sound.valid.torrent.symm _ _

theorem Fit.right (geometry : Geometry t) (reference : Reference sha1 t content) {s : Session}
    (sound : Sound sha1 t s.pieces s.disk s.store) {message : Message}
    (fit : Fit t s.pieces (onDisk s.disk s.store) message) (wired : Message.Wired message) {block : Block}
    (brings : blockOf (body message.bytes) = some block) : RightBlock t content block := by
  have other : ∀ (id : UInt8) (payload : Bytes), id ≠ msgPiece → message.bytes = buildMessage id payload →
      RightBlock t content block := by
    intro id payload different built
    rw [built, body_buildMessage, blockOf, if_neg (fun both => different both.1)] at brings
    cases brings
  cases message with
  | handshake torrent peerId => exact wired.elim
  | keepAlive => cases brings
  | choke => exact other _ _ (by decide) rfl
  | unchoke => exact other _ _ (by decide) rfl
  | interested => exact other _ _ (by decide) rfl
  | have_ index => exact other _ _ (by decide) rfl
  | bitfield raw => exact other _ _ (by decide) rfl
  | request req => exact other _ _ (by decide) rfl
  | piece index offset data =>
    obtain ⟨low, start, -, held, inside, bytes⟩ := fit
    rw [blockOf_piece data low start] at brings
    rw [← Option.some.inj brings]
    calc data
        = slice (pieceBytes t content index) offset data.length := by
          rw [← reference.held geometry sound held]
          exact bytes
      _ = slice content (index * t.pieceLength.toNat + offset) data.length := slice_slice _ _ _ _ _ inside

theorem SentByClient.right (reference : Reference sha1 t content) (wide : t.pieces.length ≤ 8 * (2 ^ 20 - 1))
    {sys : Sys} (reached : Reached sha1 kernel t sys) {id : Nat} {c : PeerConnection}
    (found : sys.session.peers.conns.find? id = some c) {pm : PeerManager} {stream : Bytes} {x : PeerManager.Call}
    (sent : SentByClient sha1 t stream) (overheard : Overheard pm stream x) {block : Block}
    (brings : blockOf x.msg = some block) : RightBlock t content block := by
  obtain ⟨peerKernel, first, i, a, within, few, ours, wire⟩ := sent
  obtain ⟨count, size, said, kept, voice⟩ := within_meeting within reached few wide ours found
  rw [← overheard.received] at wire
  obtain ⟨rest, tail, split, -, -⟩ := voice.heard (by rw [count]; exact wide) size overheard.heard wire
  have said : x.msg ∈ kept.map body := by
    rw [split]
    exact List.mem_append_left _ overheard.taken
  obtain ⟨message, equal, wired, fit⟩ := voice.word said
  rw [equal] at brings
  exact fit.right (reached_geometry reached) reference (reached_custody within.reachable).sound wired brings

end Sending

section Deliveries

variable {sha1 : Bytes → Bytes} {kernel : Kernel} {t : TorrentFile} {content : Bytes} {honest : Bytes → Prop}

def Trusty (t : TorrentFile) (content : Bytes) (honest : Bytes → Prop) (deliveries : List Delivery) : Prop :=
  ∀ delivery ∈ deliveries, honest delivery.conn.peer.host → RightBlock t content delivery.block

theorem mem_delivered {conns : Table Nat PeerConnection} {events : List PeerEvent} {delivery : Delivery}
    (member : delivery ∈ delivered conns events) :
    ∃ id, .piece id delivery.block ∈ events ∧ conns.find? id = some delivery.conn := by
  obtain ⟨event, listed, gives⟩ := List.mem_filterMap.mp member
  cases event with
  | piece id block =>
    obtain ⟨c, found, same⟩ := Option.map_eq_some_iff.mp gives
    rw [← same]
    exact ⟨id, listed, found⟩
  | _ => cases gives

theorem pollRound_trusty (reference : Reference sha1 t content)
    (wide : t.pieces.length ≤ 8 * (2 ^ 20 - 1)) {sys : Sys}
    (reached : Reached sha1 kernel t sys) (order : List Nat) (revents : Nat → Nat) (env : Env)
    (clients : HearsClients sha1 t honest sys (.poll order revents env)) :
    Trusty t content honest (delivered sys.session.peers.conns (sys.session.pollRound order revents env).2) := by
  intro delivery member trusted
  obtain ⟨id, listed, found⟩ := mem_delivered member
  obtain ⟨used, -⟩ := reached_used reached
  have listening := used_listening (.next _ _ (.buildFds order) used rfl)
  have room := (buildFds_apart sys.session.peers order).room (reached_custody reached).room
  obtain ⟨x, called, own, brings⟩ := handleEvents_blockOf env _ listed
  obtain ⟨bytes, ready, overheard⟩ := roundCalls_overheard env _ listening room found called own
  exact (clients id delivery.conn bytes found trusted ready).right reference wide reached found overheard brings

theorem within_trusty (reference : Reference sha1 t content) (wide : t.pieces.length ≤ 8 * (2 ^ 20 - 1)) {sys : Sys}
    (within : ReachableWithin (step sha1 kernel) (Begins sha1 kernel t) (HearsClients sha1 t honest) sys) :
    Trusty t content honest sys.deliveries := by
  induction within with
  | start sys begins =>
    rw [begins.2.2.2.1]
    exact fun delivery member => absurd member List.not_mem_nil
  | next sys after input earlier clients moves ih =>
    unfold step at moves
    split at moves
    · cases moves
      exact ih
    · rename_i order revents env _
      cases moves
      have round := pollRound_trusty reference wide earlier.reachable order revents env clients
      intro delivery member trusted
      rcases List.mem_append.mp member with old | new
      · exact ih delivery old trusted
      · exact round delivery new trusted
    · split at moves
      · cases moves
      · cases moves
        exact ih
    · cases moves
      exact ih
    · cases moves
      exact ih
    · cases moves

end Deliveries

section Failures

variable {sha1 : Bytes → Bytes} {kernel : Kernel} {t : TorrentFile} {content : Bytes} {f : Flow}

/-- A piece fails only if somebody has sent a wrong block. -/
theorem Judged.blames (geometry : Geometry t) (reference : Reference sha1 t content) (books : Books sha1 t f)
    (named : Named f) {judged : Session} {id : Nat} {block : Block} {result : BlockResult} {hosts : List Bytes}
    {rest : List PeerEvent} (front : f.queue = .piece id block :: rest)
    (outcome : Judged sha1 kernel f.session id block result hosts judged) (fails : result.status = .pieceFailed) :
    ∃ host, Guilty t content f.deliveries host := by
  cases outcome with
  | rejected count piece => cases fails
  | incomplete count pp b pieces fits verdict => cases fails
  | verified count pp b pieces piece written fits verdict stored => cases fails
  | failed count pp b pieces piece fits verdict =>
    cases verdict with
    | failed full wrong =>
      obtain ⟨senders, sent, -⟩ := f.session.bans.onBlock_sent id block
      have inside := books.valid.inside _ fits.counted
      have account := (books.traced.tracked block.pieceIndex).account fits id .pieceFailed books.valid
        geometry (books.balanced.whole books.valid front fits) full senders sent
      -- the content passes, so the bytes of this attempt differ from it in a block that somebody sent
      have different : (filedPiece pp block b).data ≠ pieceBytes t content block.pieceIndex := by
        intro equal
        have right := reference.passes _ inside
        rw [← equal, verify_congr sha1 books.valid.torrent.symm, wrong] at right
        cases right
      obtain ⟨slot, bound, differs⟩ := account.differs (reference.piece_length geometry _ inside) different
      obtain ⟨entry, inAttempt, index, offset, sender, bytes⟩ := account.each slot bound
      have delivered : Delivered f entry.peerId entry.block := by
        rcases List.mem_append.mp inAttempt with old | new
        · exact named.filed entry ((attempts_filed _ _).2 entry old)
        · rw [List.mem_singleton.mp new]
          exact named.queued id block (by rw [front]; exact List.mem_cons_self ..)
      have ⟨delivery, _, _, _, _, known⟩ := delivered
      exact ⟨_, Delivered.guilty reference geometry delivered known inside bound index offset account.size bytes
        differs⟩

def Blamed (t : TorrentFile) (content : Bytes) (f : Flow) : Prop :=
  ∀ entry ∈ f.filed, entry.status = .pieceFailed → ∃ host, Guilty t content f.deliveries host

theorem Blamed.frame {next : Flow} (blamed : Blamed t content f) (filed : next.filed = f.filed)
    (grown : ∀ delivery ∈ f.deliveries, delivery ∈ next.deliveries) : Blamed t content next := by
  intro entry member fails
  rw [filed] at member
  obtain ⟨host, guilty⟩ := blamed entry member fails
  exact ⟨host, guilty.mono grown⟩

theorem Blamed.quiet (geometry : Geometry t) (reference : Reference sha1 t content) (books : Books sha1 t f)
    (named : Named f) {next : Flow} (blamed : Blamed t content f) (move : Quiet sha1 kernel f next) :
    Blamed t content next := by
  cases move with
  | round order revents env idle => exact blamed.frame rfl (fun _ came => List.mem_append_left _ came)
  | file id block rest result taken judged hosts front idle took verdict =>
    intro entry member fails
    rcases List.mem_append.mp member with old | new
    · exact blamed entry old fails
    · rw [List.mem_singleton.mp new] at fails
      have outcome := judge_cases sha1 kernel f.session taken judged id block result hosts took verdict
      exact Judged.blames (f := f) geometry reference books named front outcome fails
  | _ => exact blamed.frame rfl (fun _ came => came)

theorem reached_blamed (reference : Reference sha1 t content) {sys : Sys} (reached : Reached sha1 kernel t sys)
    (few : sys.session.peers.promoted < 2 ^ 32) : Blamed t content sys.flow := by
  have geometry := reached_geometry reached
  have both : Record sha1 t sys.flow ∧ (sys.flow.session.peers.promoted < 2 ^ 32 → Blamed t content sys.flow) := by
    refine reached_invariant
      (fun f => Record sha1 t f ∧ (f.session.peers.promoted < 2 ^ 32 → Blamed t content f)) ?_ ?_ ?_ reached
    · intro sys begins
      refine ⟨begins_record begins, fun _ entry member => ?_⟩
      have empty : sys.flow.filed = [] := begins.2.2.2.2
      rw [empty] at member
      exact absurd member List.not_mem_nil
    · intro f next before move
      obtain ⟨record, blamed⟩ := before
      have grown := (Named.quiet geometry record.books.custody move).1
      refine ⟨record.quiet geometry move, fun few => ?_⟩
      have earlier := Nat.lt_of_le_of_lt grown few
      exact (blamed earlier).quiet geometry reference record.books (record.named earlier) move
    · intro f next before ask
      obtain ⟨record, blamed⟩ := before
      refine ⟨record.ask geometry ask, fun few => ?_⟩
      cases ask with
      | ask id c choice now req pieces found unchoked slot picked => exact blamed few
      | decline id c choice pieces picked => exact blamed few
  exact both.2 few

end Failures

/-- In any run in which whatever comes in from the honest hosts was sent by clients of the same torrent, however it
is cut and delayed and whatever all others send: every block of an honest host is the content's, none of these hosts
is ever banned, and if there are no others, no piece ever fails. -/
theorem honest_swarm (sha1 : Bytes → Bytes) (kernel : Kernel) (t : TorrentFile) (content : Bytes)
    (reference : Reference sha1 t content) (wide : t.pieces.length ≤ 8 * (2 ^ 20 - 1)) (honest : Bytes → Prop)
    (sys : Sys)
    (within : ReachableWithin (step sha1 kernel) (Begins sha1 kernel t) (HearsClients sha1 t honest) sys)
    (few : sys.session.peers.promoted < 2 ^ 32) :
    (∀ delivery ∈ sys.deliveries, honest delivery.conn.peer.host → RightBlock t content delivery.block) ∧
    (∀ host, honest host → host ∉ sys.session.peers.banned) ∧
    ((∀ host, honest host) → ∀ entry ∈ sys.filed, entry.status ≠ .pieceFailed) := by
  have trusty := within_trusty reference wide within
  have innocent : ∀ host, honest host → ¬ Guilty t content sys.deliveries host := by
    intro host trusted guilty
    obtain ⟨delivery, came, same, -, wrong⟩ := guilty
    exact wrong (trusty delivery came (same ▸ trusted))
  refine ⟨trusty, ?_, ?_⟩
  · intro host trusted banned
    exact innocent host trusted (((reached_fair reference within.reachable).2 few).banned host banned)
  · intro all entry member fails
    obtain ⟨host, guilty⟩ := reached_blamed reference within.reachable few entry member fails
    exact innocent host (all host) guilty

section Example

def readsWithin (stream : Bytes) (env : Env) (c : PeerConnection) : Bool :=
  match env.recv c.sock.fd with
  | .data bytes => (c.sock.received ++ bytes.take 16384).isPrefixOf stream
  | _ => true

def hearsOnly (stream : Bytes) (sys : Sys) : Input → Bool
  | .poll _ _ env => sys.session.peers.conns.entries.all (fun entry => readsWithin stream env entry.2)
  | _ => true

theorem hearsOnly_clients {sha1 : Bytes → Bytes} {t : TorrentFile} {honest : Bytes → Prop} {stream : Bytes}
    (client : SentByClient sha1 t stream) (sys : Sys) (input : Input) (passes : hearsOnly stream sys input = true) :
    HearsClients sha1 t honest sys input := by
  cases input with
  | poll order revents env =>
    intro j b bytes found _ ready
    have read := List.all_eq_true.mp passes (j, b) ((sys.session.peers.conns.find_member j b).mp found)
    simp only [readsWithin, ready, List.isPrefixOf_iff_prefix] at read
    obtain ⟨kernel, first, i, a, within, few, ours, wire⟩ := client
    exact ⟨kernel, first, i, a, within, few, ours, read.trans wire⟩
  | _ => trivial

def leechesFrom (stream : Bytes) (inputs : List Input) : Option Sys :=
  (create spotDigest wholeKernel oneByteWanted (List.replicate 20 8) (some 3) [] [⟨ascii "a", ascii "1"⟩]
    { quietEnv with dial := fun _ => .started 6, inetPton := fun _ => true } ⟨fun _ => [], 0, []⟩).toOption.bind
    (fun s => Transition.run (guarded (step spotDigest wholeKernel) (hearsOnly stream)) ⟨s, .polling, [], []⟩ inputs)

end Example

/-- The only peer is a client with the piece, and the piece comes from it. -/
theorem honest_swarm_one_block :
    ∃ sys, ReachableWithin (step spotDigest wholeKernel) (Begins spotDigest wholeKernel oneByteWanted)
        (HearsClients spotDigest oneByteWanted (fun _ => True)) sys ∧
      sys.filed.map Filed.status = [.pieceVerified] ∧
      (∀ delivery ∈ sys.deliveries, RightBlock oneByteWanted [1] delivery.block) ∧
      (∀ host, host ∉ sys.session.peers.banned) ∧ ∀ entry ∈ sys.filed, entry.status ≠ .pieceFailed := by
  generalize whole : buildHandshake oneByteWanted (List.replicate 20 7) ++ seedStream ++
    Message.bytes (.piece 0 0 [1]) = stream
  have sends : (playsAs (List.replicate 20 7) [] [1] (seedRun ++ writes)).bind (fun sys =>
      (sys.session.peers.conns.find? 0).map (fun c =>
        decide (sys.session.peers.promoted = 1 ∧ c.sock.sent = stream))) = some true := by
    rw [← whole]
    decide +kernel
  have hears : (leechesFrom stream (leechRun ++ reads (Message.bytes (.piece 0 0 [1])) 1)).map (fun sys =>
      (sys.session.peers.promoted, sys.filed.map Filed.status)) = some (1, [.pieceVerified]) := by
    rw [← whole]
    decide +kernel
  obtain ⟨first, ran, shown⟩ := Option.bind_eq_some_iff.mp sends
  obtain ⟨a, ours, seen⟩ := Option.map_eq_some_iff.mp shown
  obtain ⟨one, sent⟩ := of_decide_eq_true seen
  have client : SentByClient spotDigest oneByteWanted stream :=
    ⟨wholeKernel, first, 0, a, playsAs_within ran, by rw [one]; decide, ours, by rw [sent]⟩
  obtain ⟨sys, listened, shown⟩ := Option.map_eq_some_iff.mp hears
  obtain ⟨count, filed⟩ := Prod.mk.inj shown
  obtain ⟨s, made, moves⟩ := Option.bind_eq_some_iff.mp listened
  have begins : ReachableWithin (step spotDigest wholeKernel) (Begins spotDigest wholeKernel oneByteWanted)
      (HearsClients spotDigest oneByteWanted (fun _ => True)) ⟨s, .polling, [], []⟩ :=
    .start _ (created_begins ⟨_, oneByteWanted_accepted⟩ (Torrent.toOption_ok made))
  have within := begins.guarded (hearsOnly_clients client) moves
  obtain ⟨right, spared, verified⟩ := honest_swarm spotDigest wholeKernel oneByteWanted [1] oneByteWanted_reference
    (by decide) (fun _ => True) sys within (by rw [count]; decide)
  exact ⟨sys, within, filed, fun delivery came => right delivery came trivial, fun host => spared host trivial,
    verified (fun _ => trivial)⟩

end TorrentPeer.Session
