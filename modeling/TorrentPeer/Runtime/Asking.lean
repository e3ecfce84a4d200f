import TorrentPeer.Runtime.Notices
import TorrentPeer.Runtime.Descent

/-! Every request that is ever sent: what it asks for, and whom. -/

namespace TorrentPeer.Session

open PeerManager PieceManager Wire BigEndian Transition Torrent

def requestIn (msg : Bytes) : Option BlockRequest :=
  if msg[4]? = some msgRequest then
    some ⟨readBe32 (msg.drop 5), readBe32 (msg.drop 9), readBe32 (msg.drop 13)⟩
  else none

def requestedOf (c : PeerConnection) : List BlockRequest := c.enqueued.filterMap requestIn

/-- What has to hold when `send_request` is called. -/
structure Legitimate (t : TorrentFile) (x : Sending) : Prop where
  index : x.req.pieceIndex < t.pieces.length
  begins : kBlockSize ∣ x.req.offset
  nonempty : 1 ≤ x.req.length
  short : x.req.length ≤ kBlockSize
  inside : x.req.offset + x.req.length ≤ pieceSize t x.req.pieceIndex
  wanted : x.session.pieces.have_.get x.req.pieceIndex = false
  peer : ∃ c, x.session.peers.conns.find? x.id = some c ∧ c.hasPieces.get x.req.pieceIndex = true ∧
    c.peerChoking = false ∧ c.pending.length < kPipelineDepth
  alone : ∀ id c, x.session.peers.conns.find? id = some c → ∀ p ∈ c.pending,
    ¬ (p.req.pieceIndex = x.req.pieceIndex ∧ p.req.offset = x.req.offset)

section Messages

theorem requestIn_request (req : BlockRequest) (index : req.pieceIndex < 2 ^ 32) (offset : req.offset < 2 ^ 32)
    (length : req.length < 2 ^ 32) : requestIn (Message.bytes (.request req)) = some req := by
  have first : (Message.bytes (.request req)).drop 5 =
      be32 req.pieceIndex ++ (be32 req.offset ++ (be32 req.length ++ [])) := by
    simp [Message.bytes, buildRequest, buildMessage, be32]
  have second : (Message.bytes (.request req)).drop 9 = be32 req.offset ++ (be32 req.length ++ []) := by
    simp [Message.bytes, buildRequest, buildMessage, be32]
  have third : (Message.bytes (.request req)).drop 13 = be32 req.length ++ [] := by
    simp [Message.bytes, buildRequest, buildMessage, be32]
  have typed : (Message.bytes (.request req))[4]? = some msgRequest := buildMessage_id _ _
  rw [requestIn, if_pos typed, first, second, third, readBe32_append _ index,
    readBe32_append _ offset, readBe32_append _ length]

theorem requestIn_other (message : Message) (other : ∀ req, message ≠ .request req) :
    requestIn message.bytes = none := by
  have typed : ∀ (id : UInt8) (payload : Bytes), id ≠ msgRequest → requestIn (buildMessage id payload) = none := by
    intro id payload different
    rw [requestIn, buildMessage_id, if_neg]
    exact fun same => different (Option.some.inj same)
  cases message with
  | handshake torrent peerId =>
    rw [requestIn, if_neg]
    have letter : (Message.bytes (.handshake torrent peerId))[4]? = some 84 := rfl
    rw [letter]
    decide
  | keepAlive => rfl
  | choke => exact typed _ _ (by decide)
  | unchoke => exact typed _ _ (by decide)
  | interested => exact typed _ _ (by decide)
  | have_ index => exact typed _ _ (by decide)
  | bitfield raw => exact typed _ _ (by decide)
  | request req => exact absurd rfl (other req)
  | piece index offset data => exact typed _ _ (by decide)

theorem requested_enqueue (c : PeerConnection) (message : Message) (other : ∀ req, message ≠ .request req) :
    requestedOf (c.enqueue message.bytes) = requestedOf c := by
  rw [requestedOf, PeerConnection.enqueue, List.filterMap_append, List.filterMap_cons_none
    (requestIn_other message other)]
  exact List.append_nil _

theorem requested_greeted (have_ : Bitfield) (complete : Bool) (c : PeerConnection) :
    requestedOf (greeted have_ complete c) = requestedOf c := by
  have first := requested_enqueue c (.bitfield have_.bytes) nofun
  have second := requested_enqueue { c.enqueue (Message.bytes (.bitfield have_.bytes)) with amChoking := false }
    .unchoke nofun
  cases complete with
  | true => exact second.trans first
  | false => exact (requested_enqueue _ .interested nofun).trans (second.trans first)

end Messages

/-- A connection that nothing has been asked of, or the continuation of the one of its number. -/
def Continues (conns : Table Nat PeerConnection) (id : Nat) (c : PeerConnection) : Prop :=
  requestedOf c = [] ∧ c.pending = [] ∨
    ∃ old, conns.find? id = some old ∧ requestedOf c = requestedOf old ∧ c.pending.length ≤ old.pending.length

theorem Continues.same {conns : Table Nat PeerConnection} {id : Nat} {c old : PeerConnection}
    (found : conns.find? id = some old) (asks : requestedOf c = requestedOf old) (pending : c.pending = old.pending) :
    Continues conns id c :=
  Or.inr ⟨old, found, asks, Nat.le_of_eq (congrArg List.length pending)⟩

section Moves

theorem Alters.requested {c after : PeerConnection} (alters : Alters c after) :
    requestedOf after = requestedOf c := by
  cases alters with
  | touch _ touch =>
    cases touch with
    | drain result now => rw [requestedOf, drain_enqueued, requestedOf]
    | receive chunk now => rfl
    | message rest peer frequency out msg handled extracted effect =>
      have kept := effect_enqueued effect
      rw [requestedOf, kept, requestedOf]
    | ping empty => exact requested_enqueue c .keepAlive nofun
  | answer torrent peerId => exact requested_enqueue c (.handshake torrent peerId) nofun
  | greet have_ complete => exact requested_greeted have_ complete c
  | serve index offset data space short => exact requested_enqueue c (.piece index offset data) nofun
  | announce index => exact requested_enqueue c (.have_ index) nofun
  | expire cutoff => rfl

theorem Descends.continues {conns : Table Nat PeerConnection} {id : Nat} {c : PeerConnection}
    (descends : Descends conns id c) : Continues conns id c := by
  refine descends.preserves ?_ ?_ (fun old found => .same found rfl rfl)
  · intro pm sock peer now answers
    refine Or.inl ⟨?_, newcomer_pending pm sock peer now answers⟩
    cases answers <;> rfl
  · intro before after continues alters
    have asks := alters.requested
    have fewer := alters.pending.length_le
    rcases continues with ⟨nothing, empty⟩ | ⟨old, found, same, less⟩
    · rw [empty] at fewer
      exact Or.inl ⟨asks.trans nothing, List.eq_nil_of_length_eq_zero (Nat.le_zero.mp fewer)⟩
    · exact Or.inr ⟨old, found, asks.trans same, Nat.le_trans fewer less⟩

end Moves

section Sendings

variable {sha1 : Bytes → Bytes} {t : TorrentFile} (geometry : Geometry t) {f : Flow}
  (custody : Custody sha1 t f) {id : Nat} {c : PeerConnection} {choice : Choice} {req : BlockRequest}
  {pieces : PieceManager}
  (picked : f.session.pieces.pickBlock c.hasPieces f.session.peers.pieceFrequency id choice = (some req, pieces))

include geometry custody picked

theorem picked_small : req.pieceIndex < 2 ^ 32 ∧ req.offset < 2 ^ 32 ∧ req.length < 2 ^ 32 := by
  have valid := custody.sound.valid
  obtain ⟨opened, pp, b, pick⟩ := pickBlock_some geometry valid _ _ _ _ _ _ picked
  have counted := pick.counted
  have inside := valid.inside _ counted
  obtain ⟨low, -⟩ := List.getElem?_eq_some_iff.mp pick.missing
  rw [(pick.valid.parts _ pp pick.found).2.2.states] at low
  have start := slot_inside req.pieceIndex low
  have size := geometry.pieceSize_le req.pieceIndex inside
  have cap := geometry.pieceLength_cap
  have offset : req.offset = b * kBlockSize := congrArg BlockRequest.offset pick.request
  have length : req.length = min kBlockSize (pieceSize t req.pieceIndex - b * kBlockSize) :=
    congrArg BlockRequest.length pick.request
  rw [valid.pieceCount] at counted
  refine ⟨Nat.lt_trans counted (Nat.mod_lt _ (by decide)), by omega, ?_⟩
  rw [length, kBlockSize]
  omega

theorem picked_alone (balanced : Balanced f) (other : Nat) (d : PeerConnection)
    (found : f.session.peers.conns.find? other = some d) (p : PendingRequest) (member : p ∈ d.pending) :
    ¬ (p.req.pieceIndex = req.pieceIndex ∧ p.req.offset = req.offset) := by
  rintro ⟨index, offset⟩
  have valid := custody.sound.valid
  obtain ⟨opened, pp, b, pick⟩ := pickBlock_some geometry valid _ _ _ _ _ _ picked
  have listed : p.req ∈ requestsOf d.pending := List.mem_map.mpr ⟨p, member, rfl⟩
  have waiting : 0 < f.session.peers.conns.total (waits p.req) :=
    (Table.total_positive _ _).mpr ⟨other, d, found, List.count_pos_iff.mpr listed⟩
  have requested : f.session.pieces.isRequested p.req = true := by
    by_contra unrequested
    have books := balanced p.req
    rw [if_neg unrequested, outstanding] at books
    omega
  have place : req.offset / kBlockSize = b := by
    have offset : req.offset = b * kBlockSize := congrArg BlockRequest.offset pick.request
    rw [offset, Nat.mul_div_cancel b (by decide)]
  have same : p.req = req := by
    rw [requested_formed valid p.req requested, index, offset, place]
    exact pick.request.symm
  rw [same, pick.was_free valid] at requested
  cases requested

theorem picked_legitimate (balanced : Balanced f) (found : f.session.peers.conns.find? id = some c)
    (unchoked : c.peerChoking = false) (slot : c.pending.length < kPipelineDepth) :
    Legitimate t ⟨f.session, id, req⟩ := by
  have valid := custody.sound.valid
  obtain ⟨opened, pp, b, pick⟩ := pickBlock_some geometry valid _ _ _ _ _ _ picked
  obtain ⟨low, -⟩ := List.getElem?_eq_some_iff.mp pick.missing
  rw [(pick.valid.parts _ pp pick.found).2.2.states] at low
  have start := slot_inside req.pieceIndex low
  have offset : req.offset = b * kBlockSize := congrArg BlockRequest.offset pick.request
  have length : req.length = min kBlockSize (pieceSize t req.pieceIndex - b * kBlockSize) :=
    congrArg BlockRequest.length pick.request
  have positive : 0 < kBlockSize := by decide
  exact {
    index := valid.inside _ pick.counted
    begins := ⟨b, by rw [Nat.mul_comm]; exact offset⟩
    nonempty := by dsimp only; omega
    short := by dsimp only; omega
    inside := by dsimp only; omega
    wanted := pick.wanted
    peer := ⟨c, found, pick.held, unchoked, slot⟩
    alone := picked_alone geometry custody picked balanced }

end Sendings

section Runs

variable {sha1 : Bytes → Bytes} {kernel : Kernel} {t : TorrentFile}

def sentTo (id : Nat) (sent : List Sending) : List BlockRequest :=
  (sent.filter (fun x => decide (x.id = id))).map Sending.req

theorem sentTo_append (id : Nat) (first second : List Sending) :
    sentTo id (first ++ second) = sentTo id first ++ sentTo id second := by
  rw [sentTo, List.filter_append, List.map_append]
  rfl

theorem requestedOf_request (c : PeerConnection) (req : BlockRequest) (now : Time) (index : req.pieceIndex < 2 ^ 32)
    (offset : req.offset < 2 ^ 32) (length : req.length < 2 ^ 32) :
    requestedOf ({ c with pending := c.pending ++ [PendingRequest.mk req now] }.enqueue
      (Message.bytes (.request req))) = requestedOf c ++ [req] := by
  rw [requestedOf, PeerConnection.enqueue, List.filterMap_append,
    List.filterMap_cons_some (requestIn_request req index offset length)]
  rfl

theorem sendRequest_sent {peers : PeerManager} {id : Nat} {req : BlockRequest} {now : Time}
    {session : Session} (index : req.pieceIndex < 2 ^ 32) (offset : req.offset < 2 ^ 32)
    (length : req.length < 2 ^ 32) (other : Nat) (after : PeerConnection)
    (found : (peers.sendRequest id req now).conns.find? other = some after) :
    ∃ old, peers.conns.find? other = some old ∧
      requestedOf after = requestedOf old ++ sentTo other [⟨session, id, req⟩] ∧
      (after.pending = old.pending ∨ other = id ∧ after.pending.length = old.pending.length + 1) := by
  rw [sendRequest, Table.find_modify] at found
  split at found
  · rename_i here
    obtain ⟨old, present, same⟩ := Option.map_eq_some_iff.mp found
    refine ⟨old, present, ?_, Or.inr ⟨here, ?_⟩⟩
    · rw [← same, requestedOf_request old req now index offset length, sentTo,
        List.filter_cons_of_pos (by simp [here])]
      rfl
    · rw [← same, PeerConnection.enqueue]
      exact List.length_append
  · rename_i elsewhere
    refine ⟨after, found, ?_, Or.inl rfl⟩
    rw [sentTo, List.filter_cons_of_neg (by simpa using Ne.symm elsewhere)]
    exact (List.append_nil _).symm

/-- Every call of `send_request` is legitimate, and each peer gets the requests meant for it. -/
theorem Sends.legitimate (geometry : Geometry t) {f : Flow} {s last : Session} {sent : List Sending}
    (sends : Sends s sent last) (custody : Custody sha1 t { f with session := s })
    (balanced : Balanced { f with session := s }) :
    (∀ x ∈ sent, Legitimate t x) ∧ ∀ id c, last.peers.conns.find? id = some c →
      ∃ old, s.peers.conns.find? id = some old ∧ requestedOf c = requestedOf old ++ sentTo id sent ∧
        c.pending.length ≤ max old.pending.length kPipelineDepth := by
  induction sends with
  | done s =>
    refine ⟨fun x member => absurd member List.not_mem_nil, ?_⟩
    intro id c found
    exact ⟨c, found, (List.append_nil _).symm, Nat.le_max_left _ _⟩
  | declined s last id c choice pieces rest picked more ih =>
    have ask : Ask s { s with pieces := pieces } := .decline s id c choice pieces picked
    have later := custody.ask geometry ask
    have books := Balanced.ask geometry custody balanced ask
    exact ih later books
  | sent s last id c choice now req pieces rest found unchoked slot picked more ih =>
    generalize asked_eq : ({ s with pieces := pieces, peers := s.peers.sendRequest id req now } : Session) = asked
      at more ih
    have ask : Ask s asked := asked_eq ▸ .ask s id c choice now req pieces found unchoked slot picked
    have later := custody.ask geometry ask
    have books := Balanced.ask geometry custody balanced ask
    obtain ⟨others, changed⟩ := ih later books
    obtain ⟨index, offset, length⟩ := picked_small geometry custody picked
    refine ⟨?_, ?_⟩
    · intro x member
      rcases List.mem_cons.mp member with rfl | after
      · exact picked_legitimate geometry custody picked balanced found unchoked slot
      · exact others x after
    · intro other after present
      obtain ⟨middle, located, asks, most⟩ := changed other after present
      rw [← asked_eq] at located
      obtain ⟨old, before, longer, room⟩ :=
        @sendRequest_sent s.peers id req now s index offset length other middle located
      refine ⟨old, before, ?_, ?_⟩
      · rw [asks, longer, List.append_assoc, ← sentTo_append]
        rfl
      · rcases room with same | ⟨here, more⟩
        · rw [← same]
          exact most
        · rw [here, found] at before
          cases before
          omega

/-- A run with every call of `send_request` so far. -/
structure Logged where
  sys : Sys
  log : List Sending

def sendings (sys : Sys) : Input → List Sending
  | .fill env => fillSends env sys.session
  | _ => []

def logStep (sha1 : Bytes → Bytes) (kernel : Kernel) (l : Logged) (input : Input) : Option Logged :=
  (step sha1 kernel l.sys input).map (fun next => ⟨next, l.log ++ sendings l.sys input⟩)

def ReachedLogged (sha1 : Bytes → Bytes) (kernel : Kernel) (t : TorrentFile) : Logged → Prop :=
  Reachable (logStep sha1 kernel) (fun l => Begins sha1 kernel t l.sys ∧ l.log = [])

theorem ReachedLogged.forget {l : Logged} (reached : ReachedLogged sha1 kernel t l) :
    Reached sha1 kernel t l.sys := by
  apply Reachable.forget Logged.sys (fun l begins => begins.1) _ reached
  intro l after input moves
  obtain ⟨next, moved, same⟩ := Option.map_eq_some_iff.mp moves
  rw [← same]
  exact moved

theorem Reached.logged {sys : Sys} (reached : Reached sha1 kernel t sys) :
    ∃ l : Logged, l.sys = sys ∧ ReachedLogged sha1 kernel t l := by
  apply Reachable.annotate Logged.sys _ _ reached
  · intro sys begins
    exact ⟨⟨sys, []⟩, rfl, begins, rfl⟩
  · intro l after input moves
    refine ⟨⟨after, l.log ++ sendings l.sys input⟩, ?_, rfl⟩
    rw [logStep, moves]
    rfl

/-- Every request is logged and was legitimate, and no pipeline is too deep. -/
structure Recorded (t : TorrentFile) (l : Logged) : Prop where
  legitimate : ∀ x ∈ l.log, Legitimate t x
  logged : ∀ id c, l.sys.session.peers.conns.find? id = some c → (requestedOf c).Sublist (sentTo id l.log)
  bounded : ∀ id c, l.sys.session.peers.conns.find? id = some c → c.pending.length ≤ kPipelineDepth

theorem sendings_other (sys : Sys) {input : Input} (other : ∀ env, input ≠ .fill env) : sendings sys input = [] := by
  cases input with
  | fill env => exact absurd rfl (other env)
  | _ => rfl

theorem Recorded.quiets (geometry : Geometry t) {l : Logged} {next : Sys} (recorded : Recorded t l)
    (custody : Custody sha1 t l.sys.flow) (moves : Quiets sha1 kernel l.sys.flow next.flow) :
    Recorded t ⟨next, l.log⟩ := by
  have descends := (moves.descend geometry custody).2
  refine ⟨recorded.legitimate, ?_, ?_⟩
  · intro id c found
    rcases (descends id c found).continues with ⟨nothing, -⟩ | ⟨old, present, same, -⟩
    · rw [nothing]
      exact List.nil_sublist _
    · rw [same]
      exact recorded.logged id old present
  · intro id c found
    rcases (descends id c found).continues with ⟨-, empty⟩ | ⟨old, present, -, fewer⟩
    · rw [empty]
      exact Nat.zero_le _
    · exact Nat.le_trans fewer (recorded.bounded id old present)

theorem Recorded.fill (geometry : Geometry t) {l : Logged} {next : Sys} {env : FillEnv} (recorded : Recorded t l)
    (custody : Custody sha1 t l.sys.flow) (balanced : Balanced l.sys.flow)
    (filled : next.session = l.sys.session.fillAll env) :
    Recorded t ⟨next, l.log ++ fillSends env l.sys.session⟩ := by
  have sends := fillAll_sends env l.sys.session
  obtain ⟨legitimate, changed⟩ := sends.legitimate geometry (f := l.sys.flow) custody balanced
  rw [← filled] at changed
  refine ⟨?_, ?_, ?_⟩
  · intro x member
    rcases List.mem_append.mp member with before | now
    · exact recorded.legitimate x before
    · exact legitimate x now
  · intro id c found
    obtain ⟨old, present, asks, -⟩ := changed id c found
    rw [asks, sentTo_append]
    exact (recorded.logged id old present).append (List.Sublist.refl _)
  · intro id c found
    obtain ⟨old, present, -, depth⟩ := changed id c found
    exact Nat.le_trans depth (Nat.max_le.mpr ⟨recorded.bounded id old present, Nat.le_refl _⟩)

theorem begins_recorded {l : Logged} (begins : Begins sha1 kernel t l.sys) (empty : l.log = []) : Recorded t l := by
  have fresh := (begins_fresh begins).conns
  refine ⟨?_, ?_, ?_⟩
  · intro x member
    rw [empty] at member
    cases member
  · intro id c found
    rw [fresh] at found
    cases found
  · intro id c found
    rw [fresh] at found
    cases found

end Runs

/-- In every run each request sent is one for a block that is missing, inside its piece and pending
nowhere, to a peer that has the piece, does not choke us and has room in its pipeline; every Request
message ever enqueued is among them; and no pipeline is ever deeper than `kPipelineDepth`. -/
theorem requests_legitimate (sha1 : Bytes → Bytes) (kernel : Kernel) (t : TorrentFile) (l : Logged)
    (reached : ReachedLogged sha1 kernel t l) : Recorded t l := by
  induction reached with
  | start l begins => exact begins_recorded begins.1 begins.2
  | next l after input before moves recorded =>
    have reached : Reached sha1 kernel t l.sys := ReachedLogged.forget before
    have geometry := reached_geometry reached
    have custody := reached_custody reached
    obtain ⟨next, moved, same⟩ := Option.map_eq_some_iff.mp moves
    rw [← same]
    by_cases filling : ∃ env, input = .fill env
    · obtain ⟨env, rfl⟩ := filling
      exact recorded.fill geometry custody (reached_balanced reached) (fill_moves moved)
    · rw [sendings_other l.sys (fun env same => filling ⟨env, same⟩), List.append_nil]
      rcases step_cases sha1 kernel l.sys next input moved with quiets | ⟨⟨env, same, -⟩, -, -⟩
      · exact recorded.quiets geometry custody quiets
      · exact absurd ⟨env, same⟩ filling

/-- A peer that has been sent a request for the only block. -/
theorem requests_legitimate_one_request :
    ∃ l, ReachedLogged spotDigest wholeKernel oneByteWanted l ∧ Recorded oneByteWanted l ∧
      ∃ x ∈ l.log, x.req = ⟨0, 0, 1⟩ := by
  have asked : (rehearse spotDigest oneByteWanted (welcome oneByteWanted (ascii "h"))).bind (fun sys =>
      (sys.session.peers.conns.find? 0).map requestedOf) = some [⟨0, 0, 1⟩] := by
    decide +kernel
  obtain ⟨sys, ran, shown⟩ := Option.bind_eq_some_iff.mp asked
  obtain ⟨c, found, requested⟩ := Option.map_eq_some_iff.mp shown
  obtain ⟨l, rfl, reached⟩ := Reached.logged (rehearse_reached ⟨_, oneByteWanted_accepted⟩ ran)
  have recorded := requests_legitimate spotDigest wholeKernel oneByteWanted l reached
  refine ⟨l, reached, recorded, ?_⟩
  have listed := (recorded.logged 0 c found).subset (requested ▸ List.mem_singleton_self _)
  obtain ⟨x, member, same⟩ := List.mem_map.mp listed
  exact ⟨x, (List.mem_filter.mp member).1, same⟩

end TorrentPeer.Session
