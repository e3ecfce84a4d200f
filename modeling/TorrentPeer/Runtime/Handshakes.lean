import TorrentPeer.Runtime.Turns
import TorrentPeer.Runtime.WriteQueue

/-! Our own handshake on every connection: an inbound peer gets it through its write queue, a dialled
one by a single `send` whose result nobody acts on. -/

namespace TorrentPeer

open Wire Transition Splice

namespace PeerConnection

/-- The kernel has the whole handshake, or it has some first bytes of it and nothing else, and the
handshake is the message being sent. -/
def Hailed (hs : Bytes) (c : PeerConnection) : Prop :=
  hs <+: c.sock.sent ∨ ∃ rest, c.writeBuffer = hs :: rest ∧ c.cursor < hs.length ∧ c.sock.sent = hs.take c.cursor

variable {hs : Bytes} {c after : PeerConnection}

theorem Hailed.same (hailed : Hailed hs c) (sent : after.sock.sent = c.sock.sent)
    (buffer : after.writeBuffer = c.writeBuffer) (cursor : after.cursor = c.cursor) : Hailed hs after := by
  unfold Hailed
  rw [sent, buffer, cursor]
  exact hailed

theorem Hailed.enqueue (hailed : Hailed hs c) (msg : Bytes) : Hailed hs (c.enqueue msg) := by
  rcases hailed with whole | ⟨rest, front, inside, begun⟩
  · exact Or.inl whole
  · refine Or.inr ⟨rest ++ [msg], ?_, inside, begun⟩
    rw [PeerConnection.enqueue, front]
    rfl

theorem Hailed.advance (hailed : Hailed hs c) {front : Bytes} {rest : List Bytes} (count : Nat) (now : Time)
    (buffer : c.writeBuffer = front :: rest) :
    Hailed hs (c.advance front rest (min count (front.length - c.cursor)) now) := by
  unfold PeerConnection.advance
  dsimp only
  rcases hailed with whole | ⟨others, queue, inside, begun⟩
  · have more := whole.trans (List.prefix_append c.sock.sent
      (slice front c.cursor (min count (front.length - c.cursor))))
    split
    · exact Or.inl more
    · exact Or.inl more
  · rw [buffer, List.cons.injEq] at queue
    have further : c.sock.sent ++ slice front c.cursor (min count (front.length - c.cursor)) =
        hs.take (c.cursor + min count (front.length - c.cursor)) := by
      rw [begun, queue.1, slice, List.take_add]
    rw [further]
    split
    · rename_i done
      left
      dsimp only
      rw [done, queue.1, List.take_length]
    · rename_i unfinished
      refine Or.inr ⟨others, ?_, ?_, rfl⟩
      · dsimp only
        rw [buffer, queue.1, queue.2]
      · dsimp only
        rw [queue.1] at unfinished ⊢
        omega

theorem Hailed.drain (hailed : Hailed hs c) (result : Send) (now : Time) : Hailed hs (c.drain result now).1 := by
  unfold PeerConnection.drain
  split
  · exact hailed
  · rename_i front rest buffer
    split
    · exact hailed
    · exact hailed
    · exact hailed.advance _ now buffer

theorem Hailed.cancel {torrent : TorrentFile} {peerId : Bytes} (hailed : Hailed (buildHandshake torrent peerId) c)
    (index offset length : Nat) :
    Hailed (buildHandshake torrent peerId) (c.removeQueuedPiece index offset length).1 := by
  rcases removeQueuedPiece_cases c index offset length with same | ⟨before, m, behind, buffer, block, -, result⟩
  · rw [same]
    exact hailed
  · rw [result]
    rcases hailed with whole | ⟨rest, front, inside, begun⟩
    · exact Or.inl whole
    · right
      rw [buffer] at front
      cases before with
      | nil =>
        rw [List.nil_append, List.cons.injEq] at front
        rw [front.1] at block
        have letter : (buildHandshake torrent peerId)[4]? = some msgPiece := (of_decide_eq_true block).2.1
        exact absurd letter (by simp [buildHandshake, ascii, msgPiece])
      | cons first others =>
        rw [List.cons_append, List.cons.injEq] at front
        refine ⟨others ++ behind, ?_, inside, begun⟩
        dsimp only
        rw [front.1]
        rfl

theorem Hailed.touches {torrent : TorrentFile} {peerId : Bytes} (hailed : Hailed (buildHandshake torrent peerId) c)
    (touch : PeerManager.Touches c after) : Hailed (buildHandshake torrent peerId) after := by
  cases touch with
  | drain result now => exact hailed.drain result now
  | receive chunk now => exact hailed.same rfl rfl rfl
  | ping empty => exact hailed.enqueue _
  | message rest id frequency out msg handled extracted effect =>
    have read : Hailed (buildHandshake torrent peerId) { c with readBuffer := rest, handled := c.handled ++ [msg] } :=
      hailed.same rfl rfl rfl
    cases effect with
    | cancelled index offset length => exact read.cancel index offset length
    | _ => exact read.same rfl rfl rfl

end PeerConnection

namespace PeerManager

open PeerConnection

def Greeted (torrent : TorrentFile) (peerId : Bytes) (pm : PeerManager) : Prop :=
  pm.torrent = torrent ∧ pm.peerId = peerId ∧
    ∀ id c, pm.conns.find? id = some c → Hailed (buildHandshake torrent peerId) c

/-- Every connection is hailed, and nothing but a handshake has been sent on the other sockets. -/
structure Hailing (torrent : TorrentFile) (peerId : Bytes) (pm : PeerManager) : Prop where
  greeted : Greeted torrent peerId pm
  pends : Pends (fun p => p.sock.sent = [])
    (fun p => p.sock.sent = if p.phase = .connecting then [] else buildHandshake torrent peerId) pm

def SendsWhole (pm : PeerManager) : Op → Prop
  | .handleEvents env pfds => ∀ i p, pm.outbound[i]? = some p → p.phase = .connecting →
      reventsAt pfds (pm.outboundAt + i) ≠ 0 → env.soError p.sock.fd = false →
      ∃ count, env.send p.sock.fd = .accepted count ∧ (buildHandshake pm.torrent pm.peerId).length ≤ count
  | _ => True

section Rounds

variable {torrent : TorrentFile} {peerId : Bytes} {pm : PeerManager}

theorem newcomer_hailed (pm : PeerManager) (sock : Socket) (peer : Peer) (now : Time) (answers : Bool)
    (sent : sock.sent = if answers = true then [] else buildHandshake pm.torrent pm.peerId) :
    Hailed (buildHandshake pm.torrent pm.peerId) (newcomer pm sock peer now answers) := by
  cases answers with
  | false =>
    left
    have whole : (newcomer pm sock peer now false).sock.sent = buildHandshake pm.torrent pm.peerId := sent
    rw [whole]
  | true =>
    refine Or.inr ⟨[], rfl, Nat.succ_pos _, ?_⟩
    have empty : (newcomer pm sock peer now true).sock.sent = [] := sent
    rw [empty]
    rfl

theorem admitOne_greeted (env : Env) (answers : Bool) (w : World) (sock : Socket) (peer : Peer)
    (sent : sock.sent = if answers = true then [] else buildHandshake torrent peerId)
    (greeted : Greeted torrent peerId w.pm) : Greeted torrent peerId (admitOne env answers w (sock, peer)).pm := by
  obtain ⟨same, named, hailed⟩ := greeted
  have frame := (admitOne_frame env answers w (sock, peer)).1
  refine ⟨by rw [frame]; exact same, by rw [frame]; exact named, ?_⟩
  intro id c found
  cases taken : w.pm.conns.find? (w.pm.promoted % 2 ^ 32) with
  | none =>
    rw [admitOne_conns env answers w sock peer taken, Table.find_emplace _ _ _ _ taken] at found
    split at found
    · cases found
      rw [← same, ← named] at sent ⊢
      exact newcomer_hailed w.pm sock peer _ answers sent
    · exact hailed id c found
  | some old =>
    rw [admitOne_taken env answers w sock peer taken] at found
    split at found
    · obtain ⟨before, present, unchanged | ⟨-, changed⟩⟩ := find_modify_some found
      · rw [unchanged]
        exact hailed id before present
      · rw [changed]
        exact (hailed id before present).enqueue _
    · exact hailed id c found

theorem connected_sent {env : Env} {p : PendingOutbound} {count : Nat} (idle : p.sock.sent = [])
    (taken : env.send p.sock.fd = .accepted count) (whole : (buildHandshake pm.torrent pm.peerId).length ≤ count) :
    (connected env pm p).sock.sent = buildHandshake pm.torrent pm.peerId := by
  simp only [connected, taken, idle, List.nil_append]
  exact List.take_of_length_le whole

theorem handleEvents_greeted (env : Env) (pfds : List PollFd) (hailing : Hailing torrent peerId pm) :
    Greeted torrent peerId (handleEvents env pfds pm).1 := by
  have setting := handleEvents_setting env pfds pm
  have admitted : Greeted torrent peerId (admitted env pfds pm).pm := by
    apply admitted_invariant env pfds hailing.greeted
    · intro other inbound outbound known greeted
      exact greeted
    · intro i p sock peer located turned w greeted
      obtain ⟨hs, same⟩ := inboundTurn_joins turned
      apply admitOne_greeted env true w sock peer ?_ greeted
      rw [same]
      exact hailing.pends.inbound p (List.mem_of_getElem? located)
    · intro i p sock peer located turned w greeted
      obtain ⟨phase, hs, same⟩ := outboundTurn_joins turned
      apply admitOne_greeted env false w sock peer ?_ greeted
      have sent := hailing.pends.outbound p (List.mem_of_getElem? located)
      rw [phase] at sent
      rw [same]
      exact sent
  have swept := reaches_each (swept_serves env pfds pm) (fun a serving => (serving.vets pm).1) (by
      intro manager sock peer now answers promotes
      cases promotes)
    (fun c _ _ hailed => hailed.enqueue _) (fun _ _ _ _ _ hailed touch => hailed.touches touch) admitted.2.2
  refine ⟨setting.torrent.trans hailing.greeted.1, setting.peerId.trans hailing.greeted.2.1, ?_⟩
  intro id c found
  obtain ⟨more, inbound⟩ := accepted_inbound env pfds (expired env (PeerManager.swept env pfds pm).pm)
  rw [handleEvents_stages] at found
  dsimp only at found
  rw [(dialMore_dialed env _).1.frame, inbound] at found
  exact swept id c found

theorem handleEvents_hailing (env : Env) (pfds : List PollFd) (hailing : Hailing torrent peerId pm)
    (whole : SendsWhole pm (.handleEvents env pfds)) : Hailing torrent peerId (handleEvents env pfds pm).1 := by
  obtain ⟨our, name, -⟩ := hailing.greeted
  refine ⟨handleEvents_greeted env pfds hailing, handleEvents_pends env pfds ?_ ?_ ?_ ?_⟩
  · intro i p q located turned
    have idle := hailing.pends.inbound p (List.mem_of_getElem? located)
    rcases inboundTurn_waits turned with same | ⟨more, read, same⟩
    · rw [same]
      exact idle
    · rw [same]
      exact idle
  · intro i p q located turned
    have sent := hailing.pends.outbound p (List.mem_of_getElem? located)
    rcases outboundTurn_waits turned with same | ⟨phase, ready, up, same⟩ | ⟨more, read, same⟩
    · rw [same]
      exact sent
    · obtain ⟨count, taken, enough⟩ := whole i p located phase ready up
      rw [phase] at sent
      rw [same, connected_sent sent taken enough, our, name]
      rfl
    · rw [same]
      exact sent
  · rintro p - ⟨fd, sock⟩
    rw [sock]
  · rintro o phase - ⟨fd, sock⟩
    rw [sock, phase]
    rfl

theorem perform_hailing (op : Op) (hailing : Hailing torrent peerId pm) (whole : SendsWhole pm op) :
    Hailing torrent peerId (pm.perform op).1 := by
  obtain ⟨our, name, hailed⟩ := hailing.greeted
  have modified : ∀ id change, (∀ c, Hailed (buildHandshake torrent peerId) c →
      Hailed (buildHandshake torrent peerId) (change c)) →
      Hailing torrent peerId { pm with conns := pm.conns.modify id change } := by
    intro id change keeps
    refine ⟨⟨our, name, ?_⟩, hailing.pends.inbound, hailing.pends.outbound⟩
    intro other c found
    obtain ⟨old, present, same | ⟨-, same⟩⟩ := find_modify_some found
    · rw [same]
      exact hailed other old present
    · rw [same]
      exact keeps old (hailed other old present)
  cases op with
  | buildFds order => exact ⟨⟨our, name, hailed⟩, hailing.pends.inbound, hailing.pends.outbound⟩
  | handleEvents env pfds => exact handleEvents_hailing env pfds hailing whole
  | addPeers env peers =>
    have setting := addPeers_setting env pm peers
    refine ⟨⟨setting.torrent.trans our, setting.peerId.trans name, ?_⟩, ?_⟩
    · intro id c found
      rw [perform, (addPeers_apart env pm peers).conns] at found
      exact hailed id c found
    · apply (hailing.pends.queuePeers peers).dialLoop
      rintro o phase - ⟨fd, sock⟩
      rw [sock, phase]
      rfl
  | send id message now =>
    apply modified
    intro c before
    have noted : Hailed (buildHandshake torrent peerId) (noted c now message) := by
      cases message <;> exact before.same rfl rfl rfl
    exact noted.enqueue _
  | broadcastHave index =>
    refine ⟨⟨our, name, ?_⟩, hailing.pends.inbound, hailing.pends.outbound⟩
    intro id c found
    rw [perform, broadcastHave, Table.find_update] at found
    obtain ⟨old, present, same⟩ := Option.map_eq_some_iff.mp found
    rw [← same]
    exact (hailed id old present).enqueue _
  | ban host order =>
    by_cases already : host ∈ pm.banned
    · rw [perform, ban, if_pos already]
      exact hailing
    · rw [perform, ban_fresh host order already]
      have serves := serves_dropAll { pm with banned := insert host pm.banned } [] (pm.peersOf host order)
      have listed : Pends (fun p => p.sock.sent = [])
          (fun p => p.sock.sent = if p.phase = .connecting then [] else buildHandshake torrent peerId)
          { pm with banned := insert host pm.banned } := ⟨hailing.pends.inbound, hailing.pends.outbound⟩
      refine ⟨⟨serves.setting.torrent.trans our, serves.setting.peerId.trans name, ?_⟩, listed.serves rfl serves⟩
      intro id c found
      rw [dropAll_conns] at found
      split at found
      · cases found
      · exact hailed id c found
  | expire id pending snubbed => exact modified id _ (fun c before => before.same rfl rfl rfl)

end Rounds

/-- Whenever no `send` of a handshake to a dialled peer has come out short, what the kernel has been given on
a connection begins with our handshake, or is a part of it whose rest is next. -/
theorem handshake_goes_whole (pm : PeerManager)
    (used : ReachableWithin (fun pm op => some (pm.perform op).1)
      (fun pm => ∃ torrent peerId listenSock maxPeers, create torrent peerId listenSock maxPeers = .ok pm)
      SendsWhole pm) (id : Nat) (c : PeerConnection) (found : pm.conns.find? id = some c) :
    Hailed (buildHandshake pm.torrent pm.peerId) c := by
  have hailing : Hailing pm.torrent pm.peerId pm := by
    clear found
    induction used with
    | start pm begins =>
      obtain ⟨torrent, peerId, listenSock, maxPeers, created⟩ := begins
      obtain ⟨conns, inbound, outbound, -⟩ := create_empty created
      refine ⟨⟨rfl, rfl, ?_⟩, ?_, ?_⟩
      · intro id c found
        rw [conns] at found
        cases found
      · rw [inbound]
        exact fun _ member => absurd member List.not_mem_nil
      · rw [outbound]
        exact fun _ member => absurd member List.not_mem_nil
    | next pm after op earlier whole moves ih =>
      cases moves
      have later := perform_hailing op ih whole
      rw [later.greeted.1, later.greeted.2.1]
      exact later
  exact hailing.greeted.2.2 id c found

section Example

open Session

/-- We dial a peer, `send` takes the given number of bytes of the handshake, the peer answers with its own,
and a message for it is queued and sent. -/
def dialOne (taken : Nat) : List Op :=
  let env := { quietEnv with send := fun _ => .accepted taken }
  [.addPeers { env with dial := fun _ => .started 5, inetPton := fun _ => true } [⟨ascii "h", ascii "1"⟩],
    .buildFds [],
    .handleEvents env [⟨5, pollOut, pollOut⟩],
    .buildFds [],
    .handleEvents { env with recv := fun _ => .data (buildHandshake oneByte (List.replicate 20 8)) }
      [⟨5, pollIn, pollIn⟩],
    .send 0 .unchoke 0,
    .buildFds [],
    .handleEvents env [⟨5, pollOut, pollOut⟩]]

def takesWhole (pm : PeerManager) : Op → Bool
  | .handleEvents env _ => pm.outbound.all (fun p =>
    match env.send p.sock.fd with
    | .accepted count => decide ((buildHandshake pm.torrent pm.peerId).length ≤ count)
    | _ => false)
  | _ => true

theorem takesWhole_sends (pm : PeerManager) (op : Op) (passed : takesWhole pm op = true) : SendsWhole pm op := by
  cases op with
  | handleEvents env pfds =>
    intro i p located _ _ _
    have each := List.all_eq_true.mp passed p (List.mem_of_getElem? located)
    cases taken : env.send p.sock.fd with
    | accepted count =>
      rw [taken] at each
      exact ⟨count, rfl, of_decide_eq_true each⟩
    | transient =>
      rw [taken] at each
      cases each
    | failed =>
      rw [taken] at each
      cases each
  | _ => trivial

def dialled (step : PeerManager → Op → Option PeerManager) (taken : Nat) : Option PeerManager :=
  match create oneByte (List.replicate 20 7) none 60 with
  | .error _ => none
  | .ok pm => run step pm (dialOne taken)

end Example

/-- A dialled peer whose handshake was taken whole, and the message behind it. -/
theorem handshake_goes_whole_dialled :
    ∃ (pm : PeerManager) (c : PeerConnection), pm.conns.find? 0 = some c ∧
      c.sock.sent = buildHandshake pm.torrent pm.peerId ++ [0, 0, 0, 1, 1] ∧
      Hailed (buildHandshake pm.torrent pm.peerId) c := by
  have seen : ((dialled (guarded (fun pm op => some (pm.perform op).1) takesWhole) 68).bind (fun pm =>
      (pm.conns.find? 0).map (fun c => decide (c.sock.sent = buildHandshake pm.torrent pm.peerId ++
        [0, 0, 0, 1, 1])))) =
      some true := by
    decide +kernel
  obtain ⟨pm, ran, shown⟩ := Option.bind_eq_some_iff.mp seen
  obtain ⟨c, found, same⟩ := Option.map_eq_some_iff.mp shown
  unfold dialled at ran
  split at ran
  · cases ran
  · rename_i fresh created
    have begins : ReachableWithin (fun pm op => some (pm.perform op).1)
        (fun pm => ∃ torrent peerId listenSock maxPeers, create torrent peerId listenSock maxPeers = .ok pm)
        SendsWhole fresh := .start fresh ⟨_, _, _, _, created⟩
    have used := begins.guarded takesWhole_sends ran
    exact ⟨pm, c, found, of_decide_eq_true same, handshake_goes_whole pm used 0 c found⟩

/-- After a short `send` the rest of the handshake is lost: the next message follows its first ten bytes. -/
theorem short_handshake_desyncs :
    ∃ pm c, Used pm ∧ pm.conns.find? 0 = some c ∧
      c.sock.sent = (buildHandshake pm.torrent pm.peerId).take 10 ++ [0, 0, 0, 1, 1] ∧
      ¬ Hailed (buildHandshake pm.torrent pm.peerId) c := by
  have seen : ((dialled (fun pm op => some (pm.perform op).1) 10).bind (fun pm =>
      (pm.conns.find? 0).map (fun c => decide
        (c.sock.sent = (buildHandshake pm.torrent pm.peerId).take 10 ++ [0, 0, 0, 1, 1] ∧
          c.writeBuffer = [] ∧ ¬ buildHandshake pm.torrent pm.peerId <+: c.sock.sent)))) = some true := by
    decide +kernel
  obtain ⟨pm, ran, shown⟩ := Option.bind_eq_some_iff.mp seen
  obtain ⟨c, found, same⟩ := Option.map_eq_some_iff.mp shown
  obtain ⟨sent, empty, short⟩ := of_decide_eq_true same
  unfold dialled at ran
  split at ran
  · cases ran
  · rename_i fresh created
    have begins : Used fresh := .start fresh ⟨_, _, _, _, created⟩
    refine ⟨pm, c, begins.run ran, found, sent, ?_⟩
    rintro (whole | ⟨rest, front, -, -⟩)
    · exact short whole
    · rw [empty] at front
      cases front

end PeerManager

end TorrentPeer
