import TorrentPeer.Runtime.Peers
import TorrentPeer.Lib.Transition

/-! `PeerManager` as a machine of small acts: promote, send, drain, receive, handle one
message, drop. Every public call is a sequence of them, so that an invariant is checked
act by act. -/

namespace TorrentPeer.PeerManager

open Wire Transition

/-- The manager and the events of the round so far. -/
structure World where
  pm : PeerManager
  out : List PeerEvent

inductive Act where
  | promote (sock : Socket) (peer : Peer) (now : Time) (answers : Bool)
  | send (id : Nat) (message : Message) (now : Time)
  | drain (id : Nat) (result : Send) (now : Time)
  | receive (id : Nat) (chunk : Bytes) (now : Time)
  | message (id : Nat)
  | drop (id : Nat)
  | keepAlives (now : Time)
  | outside (other : PeerManager)
  | ban (host : Bytes)
  | collect

def noted (c : PeerConnection) (now : Time) : Message → PeerConnection
  | .interested => { c with amInterested := true }
  | .choke => { c with amChoking := true }
  | .unchoke => { c with amChoking := false }
  | .request req => { c with pending := c.pending ++ [PendingRequest.mk req now] }
  | _ => c

def sendNoted (c : PeerConnection) (now : Time) (message : Message) : PeerConnection :=
  (noted c now message).enqueue message.bytes

/-- The established peers, what is counted over them, and the bans of one manager with
the rest of another. -/
def withOutside (pm other : PeerManager) : PeerManager :=
  { other with
    conns := pm.conns
    banned := pm.banned
    torrent := pm.torrent
    peerId := pm.peerId
    pieceCount := pm.pieceCount
    promoted := pm.promoted
    maxPeers := pm.maxPeers
    pieceFrequency := pm.pieceFrequency }

def nextMessage (w : World) (id : Nat) (c : PeerConnection) : Option Handled :=
  match extractMessage c.readBuffer with
  | .ok (some (msg, rest)) =>
    some ({ c with readBuffer := rest, handled := c.handled ++ [msg] }.handle id w.pm.pieceFrequency
      w.out msg)
  | _ => none

def act (w : World) : Act → Option World
  | .promote sock peer now answers =>
    if w.pm.conns.size < w.pm.maxPeers then
      let (pm, out) := w.pm.promote sock peer now w.out
      some ⟨if answers = true then
        pm.sendTo (w.pm.promoted % 2 ^ 32) (.handshake w.pm.torrent w.pm.peerId) else pm, out⟩
    else none
  | .send id message now =>
    some ⟨{ w.pm with conns := w.pm.conns.modify id (fun c => sendNoted c now message) }, w.out⟩
  | .drain id result now =>
    some ⟨{ w.pm with conns := w.pm.conns.modify id (fun c => (c.drain result now).1) }, w.out⟩
  | .receive id chunk now =>
    some ⟨{ w.pm with conns := w.pm.conns.modify id (fun c =>
      { c with
        sock := { c.sock with received := c.sock.received ++ chunk }
        readBuffer := c.readBuffer ++ chunk
        lastReceived := now }) }, w.out⟩
  | .message id =>
    ((w.pm.conns.find? id).bind (nextMessage w id)).map (fun handled =>
      ⟨{ w.pm with
          conns := w.pm.conns.modify id (fun _ => handled.conn)
          pieceFrequency := handled.frequency }, handled.out⟩)
  | .drop id =>
    let (pm, out) := w.pm.drop id w.out
    some ⟨pm, out⟩
  | .keepAlives now => some ⟨w.pm.keepAlives now, w.out⟩
  | .outside other => some ⟨withOutside w.pm other, w.out⟩
  | .ban host => some ⟨{ w.pm with banned := insert host w.pm.banned }, w.out⟩
  -- the caller has the events; the next round starts an empty list
  | .collect => some ⟨w.pm, []⟩

/-- Acts that `PeerManager` takes on its own, inside `handle_events`. -/
def Act.Own : Act → Prop
  | .send _ _ _ => False
  | .ban _ => False
  | .collect => False
  | _ => True

def Act.Serving : Act → Prop
  | .drain _ _ _ => True
  | .receive _ _ _ => True
  | .message _ => True
  | .drop _ => True
  | .keepAlives _ => True
  | _ => False

def Act.Spares (banned : Finset Bytes) (a : Act) : Prop :=
  a.Own ∧ ∀ sock peer now answers, a = .promote sock peer now answers → peer.host ∉ banned

def Act.Vets (pm : PeerManager) (a : Act) : Prop :=
  a.Own ∧ ∀ sock peer now answers, a = .promote sock peer now answers →
    sock.received.length = 68 ∧ pm.verifyHandshake sock.received peer = true

def Act.Joins (env : Env) (pm : PeerManager) (a : Act) : Prop :=
  a.Vets pm ∧ ¬ a.Serving ∧
    ∀ sock peer now answers, a = .promote sock peer now answers → now = env.clock (.promote sock.fd)

abbrev Acts : World → World → Prop := Reaches act Act.Own

abbrev Serves : World → World → Prop := Reaches act Act.Serving

def Act.Reading : Act → Prop
  | .drain _ _ _ => True
  | .receive _ _ _ => True
  | .message _ => True
  | _ => False

abbrev Reads : World → World → Prop := Reaches act Act.Reading

theorem Reads.serves {w next : World} (reads : Reads w next) : Serves w next :=
  Reaches.widen (fun a reading => by cases a <;> trivial) reads

theorem Act.Serving.vets {a : Act} (serving : a.Serving) (pm : PeerManager) : a.Vets pm := by
  refine ⟨by cases a <;> trivial, ?_⟩
  rintro sock peer now answers rfl
  cases serving

theorem Serves.vets {w next : World} (serves : Serves w next) (pm : PeerManager) :
    Reaches act (Act.Vets pm) w next :=
  Reaches.widen (fun _ serving => serving.vets pm) serves

theorem joins_vets {w next : World} {env : Env} {pm : PeerManager} (moves : Reaches act (Act.Joins env pm) w next) :
    Reaches act (Act.Vets pm) w next :=
  Reaches.widen (fun _ joins => joins.1) moves

theorem Act.Vets.spares {pm : PeerManager} {a : Act} (vets : a.Vets pm) : a.Spares pm.banned :=
  ⟨vets.1, fun sock peer now answers promotes =>
    (of_decide_eq_true (vets.2 sock peer now answers promotes).2).1⟩

theorem vets_spares {w next : World} {pm : PeerManager} (moves : Reaches act (Act.Vets pm) w next) :
    Reaches act (Act.Spares pm.banned) w next :=
  Reaches.widen (fun _ vets => vets.spares) moves

theorem vets_acts {w next : World} {pm : PeerManager} (moves : Reaches act (Act.Vets pm) w next) : Acts w next :=
  Reaches.widen (fun _ vets => vets.1) moves

section Inversion

variable {w next : World}

def newcomer (pm : PeerManager) (sock : Socket) (peer : Peer) (now : Time) (answers : Bool) :
    PeerConnection :=
  let c : PeerConnection := {
    id := pm.promoted % 2 ^ 32
    sock := sock
    peer := peer
    lastSent := now
    lastReceived := now
    hasPieces := Bitfield.ofBits pm.pieceCount }
  if answers = true then c.enqueue (Message.bytes (.handshake pm.torrent pm.peerId)) else c

theorem act_promote {sock : Socket} {peer : Peer} {now : Time} {answers : Bool}
    (absent : w.pm.conns.find? (w.pm.promoted % 2 ^ 32) = none)
    (moves : act w (.promote sock peer now answers) = some next) :
    w.pm.conns.size < w.pm.maxPeers ∧
      next = ⟨{ w.pm with
          promoted := w.pm.promoted + 1
          conns := w.pm.conns.emplace (w.pm.promoted % 2 ^ 32) (newcomer w.pm sock peer now answers) },
        w.out ++ [.joined (w.pm.promoted % 2 ^ 32)]⟩ := by
  simp only [act] at moves
  split at moves
  · rename_i room
    refine ⟨room, ?_⟩
    cases moves
    cases answers with
    | false => rfl
    | true =>
      simp only [if_true, promote, sendTo, Table.emplace_modify _ _ _ _ absent]
      rfl
  · cases moves

theorem act_message {id : Nat} (moves : act w (.message id) = some next) :
    ∃ c msg rest handled, w.pm.conns.find? id = some c ∧
      extractMessage c.readBuffer = .ok (some (msg, rest)) ∧
      PeerConnection.Effect { c with readBuffer := rest, handled := c.handled ++ [msg] } id
        w.pm.pieceFrequency w.out msg handled ∧
      next = ⟨{ w.pm with
          conns := w.pm.conns.modify id (fun _ => handled.conn)
          pieceFrequency := handled.frequency }, handled.out⟩ := by
  obtain ⟨handled, found, same⟩ := Option.map_eq_some_iff.mp moves
  obtain ⟨c, present, taken⟩ := Option.bind_eq_some_iff.mp found
  unfold nextMessage at taken
  split at taken
  · rename_i msg rest extracted
    refine ⟨c, msg, rest, handled, present, extracted, ?_, same.symm⟩
    rw [← Option.some.inj taken]
    exact PeerConnection.handle_effect _ _ _ _ _
  · cases taken

theorem act_drop {id : Nat} (moves : act w (.drop id) = some next) :
    (w.pm.conns.find? id = none ∧ next = w) ∨
      ∃ c, w.pm.conns.find? id = some c ∧
        next = ⟨{ w.pm with
            pieceFrequency := applyAvailability w.pm.pieceFrequency c.hasPieces (-1)
            known := w.pm.known.erase (key c.peer)
            conns := w.pm.conns.erase id }, w.out ++ [.dropped id (requestsOf c.pending)]⟩ := by
  simp only [act, drop] at moves
  cases found : w.pm.conns.find? id with
  | none =>
    simp only [found, Option.some.injEq] at moves
    exact Or.inl ⟨rfl, moves.symm⟩
  | some c =>
    simp only [found, Option.some.injEq] at moves
    exact Or.inr ⟨c, rfl, moves.symm⟩

end Inversion

/-- What no round changes: whom the manager refuses, and its snapshot of the peers. -/
structure SameSetting (before after : PeerManager) : Prop where
  torrent : after.torrent = before.torrent
  peerId : after.peerId = before.peerId
  banned : after.banned = before.banned
  ids : after.ids = before.ids

theorem SameSetting.refl (pm : PeerManager) : SameSetting pm pm := ⟨rfl, rfl, rfl, rfl⟩

theorem SameSetting.trans {first second third : PeerManager} (early : SameSetting first second)
    (late : SameSetting second third) : SameSetting first third :=
  ⟨late.torrent.trans early.torrent, late.peerId.trans early.peerId, late.banned.trans early.banned,
    late.ids.trans early.ids⟩

theorem SameSetting.joins {before after : PeerManager} (same : SameSetting before after) (env : Env) :
    Act.Joins env after = Act.Joins env before := by
  have verdicts : after.verifyHandshake = before.verifyHandshake := by
    funext hs peer
    rw [verifyHandshake, verifyHandshake, same.torrent, same.peerId, same.banned]
  funext a
  rw [Act.Joins, Act.Joins, Act.Vets, Act.Vets, verdicts]

/-- Serving never adds a peer and leaves the handshakes alone. -/
structure Frame (before after : PeerManager) : Prop where
  inbound : after.inbound = before.inbound
  outbound : after.outbound = before.outbound
  banned : after.banned = before.banned
  maxPeers : after.maxPeers = before.maxPeers
  listenSock : after.listenSock = before.listenSock
  promoted : after.promoted = before.promoted
  size : after.conns.size ≤ before.conns.size

theorem Frame.refl (pm : PeerManager) : Frame pm pm := ⟨rfl, rfl, rfl, rfl, rfl, rfl, Nat.le_refl _⟩

theorem Frame.trans {first second third : PeerManager} (early : Frame first second)
    (late : Frame second third) : Frame first third :=
  ⟨late.inbound.trans early.inbound, late.outbound.trans early.outbound,
    late.banned.trans early.banned, late.maxPeers.trans early.maxPeers,
    late.listenSock.trans early.listenSock, late.promoted.trans early.promoted,
    Nat.le_trans late.size early.size⟩

theorem drop_frame (pm : PeerManager) (id : Nat) (out : List PeerEvent) :
    Frame pm (pm.drop id out).1 := by
  unfold drop
  split
  · exact Frame.refl pm
  · exact ⟨rfl, rfl, rfl, rfl, rfl, rfl, Table.size_erase _ _⟩

theorem act_frame (w next : World) (a : Act) (serving : a.Serving) (moves : act w a = some next) :
    Frame w.pm next.pm := by
  cases a with
  | promote | send | outside | ban | collect => cases serving
  | drain id result now =>
    cases moves
    exact ⟨rfl, rfl, rfl, rfl, rfl, rfl, by simp⟩
  | receive id chunk now =>
    cases moves
    exact ⟨rfl, rfl, rfl, rfl, rfl, rfl, by simp⟩
  | keepAlives now =>
    cases moves
    exact ⟨rfl, rfl, rfl, rfl, rfl, rfl, by simp [keepAlives]⟩
  | drop id =>
    cases moves
    exact drop_frame w.pm id w.out
  | message id =>
    obtain ⟨handled, _, same⟩ := Option.map_eq_some_iff.mp moves
    cases same
    exact ⟨rfl, rfl, rfl, rfl, rfl, rfl, by simp⟩

theorem act_setting (w next : World) (a : Act) (serving : a.Serving) (moves : act w a = some next) :
    SameSetting w.pm next.pm := by
  cases a with
  | promote | send | outside | ban | collect => cases serving
  | drop id =>
    rcases act_drop moves with ⟨-, same⟩ | ⟨c, -, same⟩
    · rw [same]
      exact SameSetting.refl w.pm
    · rw [same]
      exact ⟨rfl, rfl, rfl, rfl⟩
  | message id =>
    obtain ⟨handled, _, same⟩ := Option.map_eq_some_iff.mp moves
    cases same
    exact ⟨rfl, rfl, rfl, rfl⟩
  | drain id result now =>
    cases moves
    exact ⟨rfl, rfl, rfl, rfl⟩
  | receive id chunk now =>
    cases moves
    exact ⟨rfl, rfl, rfl, rfl⟩
  | keepAlives now =>
    cases moves
    exact ⟨rfl, rfl, rfl, rfl⟩

theorem Serves.setting {w next : World} (serves : Serves w next) : SameSetting w.pm next.pm :=
  Reaches.preserves
    (fun middle after a serving earlier moves =>
      SameSetting.trans earlier (act_setting middle after a serving moves))
    serves (SameSetting.refl w.pm)

theorem Serves.frame {w next : World} (serves : Serves w next) : Frame w.pm next.pm :=
  Reaches.preserves
    (fun middle after a serving earlier moves =>
      Frame.trans earlier (act_frame middle after a serving moves))
    serves (Frame.refl w.pm)

/-- What no act of the manager itself changes. The numbers it gives out only grow. -/
structure Fixed (before after : PeerManager) : Prop where
  torrent : after.torrent = before.torrent
  peerId : after.peerId = before.peerId
  banned : after.banned = before.banned
  promoted : before.promoted ≤ after.promoted

theorem Fixed.refl (pm : PeerManager) : Fixed pm pm := ⟨rfl, rfl, rfl, Nat.le_refl _⟩

theorem Fixed.trans {first second third : PeerManager} (early : Fixed first second) (late : Fixed second third) :
    Fixed first third :=
  ⟨late.torrent.trans early.torrent, late.peerId.trans early.peerId, late.banned.trans early.banned,
    Nat.le_trans early.promoted late.promoted⟩

theorem act_fixed {w next : World} {a : Act} (own : a.Own) (moves : act w a = some next) : Fixed w.pm next.pm := by
  cases a with
  | send | ban | collect => cases own
  | promote sock peer now answers =>
    simp only [act, promote] at moves
    split at moves
    · cases moves
      cases answers with
      | false => exact ⟨rfl, rfl, rfl, Nat.le_succ _⟩
      | true => exact ⟨rfl, rfl, rfl, Nat.le_succ _⟩
    · cases moves
  | message id =>
    obtain ⟨c, msg, rest, handled, -, -, -, same⟩ := act_message moves
    rw [same]
    exact ⟨rfl, rfl, rfl, Nat.le_refl _⟩
  | drop id =>
    rcases act_drop moves with ⟨-, same⟩ | ⟨c, -, same⟩
    · rw [same]
      exact Fixed.refl w.pm
    · rw [same]
      exact ⟨rfl, rfl, rfl, Nat.le_refl _⟩
  | drain id result now =>
    cases moves
    exact ⟨rfl, rfl, rfl, Nat.le_refl _⟩
  | receive id chunk now =>
    cases moves
    exact ⟨rfl, rfl, rfl, Nat.le_refl _⟩
  | keepAlives now =>
    cases moves
    exact ⟨rfl, rfl, rfl, Nat.le_refl _⟩
  | outside other =>
    cases moves
    exact ⟨rfl, rfl, rfl, Nat.le_refl _⟩

theorem acts_fixed {w next : World} (moves : Acts w next) : Fixed w.pm next.pm := by
  have step : ∀ state after a, Act.Own a → Fixed w.pm state.pm → act state a = some after → Fixed w.pm after.pm :=
    fun _ _ _ own before moved => before.trans (act_fixed own moved)
  exact Reaches.preserves step moves (Fixed.refl w.pm)

section Single

variable (pm : PeerManager) (out : List PeerEvent)

theorem joins_outside (other : PeerManager) (same : other = withOutside pm other) (env : Env)
    (start : PeerManager) : Reaches act (Act.Joins env start) ⟨pm, out⟩ ⟨other, out⟩ :=
  Reaches.one (.outside other) ⟨⟨trivial, by simp⟩, id, by simp⟩ (by rw [act, ← same])

theorem serves_drop (id : Nat) : Serves ⟨pm, out⟩ ⟨(pm.drop id out).1, (pm.drop id out).2⟩ :=
  Reaches.one (.drop id) trivial rfl

theorem serves_dropAll (ids : List Nat) :
    Serves ⟨pm, out⟩ ⟨(pm.dropAll out ids).1, (pm.dropAll out ids).2⟩ := by
  induction ids generalizing pm out with
  | nil => exact Relation.ReflTransGen.refl
  | cons id ids ih => exact (serves_drop pm out id).trans (ih (pm.drop id out).1 (pm.drop id out).2)

theorem dropAll_out (ids : List Nat) :
    (pm.dropAll out ids).1 = (pm.dropAll [] ids).1 ∧
      (pm.dropAll out ids).2 = out ++ (pm.dropAll [] ids).2 := by
  induction ids generalizing pm out with
  | nil => simp [dropAll]
  | cons id ids ih =>
    simp only [dropAll]
    cases found : pm.conns.find? id with
    | none =>
      simp only [drop, found]
      exact ih pm out
    | some c =>
      simp only [drop, found]
      obtain ⟨state, events⟩ := ih _ (out ++ [.dropped id (requestsOf c.pending)])
      obtain ⟨alone, single⟩ := ih _ ([] ++ [.dropped id (requestsOf c.pending)])
      rw [state, alone, events, single]
      simp

theorem dropAll_dropped (ids : List Nat) : ∀ event ∈ (pm.dropAll [] ids).2, ∃ id reqs, event = .dropped id reqs := by
  induction ids generalizing pm with
  | nil => exact fun event member => absurd member List.not_mem_nil
  | cons id ids ih =>
    intro event member
    rw [dropAll] at member
    dsimp only at member
    rw [(dropAll_out _ _ _).2] at member
    rcases List.mem_append.mp member with first | later
    · unfold drop at first
      cases found : pm.conns.find? id with
      | none =>
        rw [found] at first
        exact absurd first List.not_mem_nil
      | some c =>
        rw [found] at first
        exact ⟨id, requestsOf c.pending, List.mem_singleton.mp first⟩
    · exact ih _ event later

theorem drain_moves (id : Nat) (c : PeerConnection) (found : pm.conns.find? id = some c) (result : Send)
    (now : Time) :
    act ⟨pm, out⟩ (.drain id result now) =
      some ⟨{ pm with conns := pm.conns.modify id (fun _ => (c.drain result now).1) }, out⟩ := by
  rw [act, Table.modify_congr pm.conns id _ (fun _ => (c.drain result now).1)]
  intro value present
  rw [found] at present
  cases present
  rfl

theorem receive_moves (id : Nat) (chunk : Bytes) (stamp : PeerConnection → Time) :
    act ⟨pm, out⟩ (.receive id chunk (((pm.conns.find? id).map stamp).getD 0)) =
      some ⟨{ pm with conns := pm.conns.modify id (fun c =>
        { c with
          sock := { c.sock with received := c.sock.received ++ chunk }
          readBuffer := c.readBuffer ++ chunk
          lastReceived := stamp c }) }, out⟩ := by
  simp only [act, Option.some.injEq, World.mk.injEq, and_true]
  congr 1
  apply Table.modify_congr
  intro value present
  rw [present]
  rfl

end Single

section Reading

/-- A call of `handle_message`, on the connection that has just given the message up. -/
structure Call where
  id : Nat
  conn : PeerConnection
  frequency : List Nat
  out : List PeerEvent
  msg : Bytes

def Call.result (x : Call) : Handled := x.conn.handle x.id x.frequency x.out x.msg

def Call.settled (x : Call) (pm : PeerManager) : PeerManager :=
  { pm with
    conns := pm.conns.modify x.id (fun _ => x.result.conn)
    pieceFrequency := x.result.frequency }

def nextCall (pm : PeerManager) (out : List PeerEvent) (id : Nat) : Option Call :=
  (pm.conns.find? id).bind (fun c =>
    match extractMessage c.readBuffer with
    | .ok (some (msg, rest)) =>
      some ⟨id, { c with readBuffer := rest, handled := c.handled ++ [msg] }, pm.pieceFrequency, out, msg⟩
    | _ => none)

/-- The calls of one `extract_message` loop. -/
def readCalls (id : Nat) : Nat → PeerManager → List PeerEvent → List Call
  | 0, _, _ => []
  | fuel + 1, pm, out =>
    match nextCall pm out id with
    | none => []
    | some x =>
      match x.result.thrown with
      | none => x :: readCalls id fuel (x.settled pm) x.result.out
      | some _ => [x]

def connectionCalls (env : Env) (pm : PeerManager) (id : Nat) (c : PeerConnection) (out : List PeerEvent) :
    List Call :=
  match env.recv c.sock.fd with
  | .data bytes =>
    let chunk := bytes.take 16384
    if chunk = [] then []
    else
      readCalls id (c.readBuffer.length + chunk.length + 1)
        { pm with conns := pm.conns.modify id (fun c =>
          { c with
            sock := { c.sock with received := c.sock.received ++ chunk }
            readBuffer := c.readBuffer ++ chunk
            lastReceived := env.clock (.receive c.sock.fd) }) } out
  | _ => []

def serveCalls (env : Env) (pm : PeerManager) (id rev : Nat) (out : List PeerEvent) : List Call :=
  if rev = 0 then []
  else
    match pm.conns.find? id with
    | none => []
    | some c =>
      let (drained, failed) :=
        if writable rev = true then c.drain (env.send c.sock.fd) (env.clock (.drain c.sock.fd))
        else (c, false)
      if failed = true then []
      else if readable rev = false then []
      else connectionCalls env { pm with conns := pm.conns.modify id (fun _ => drained) } id drained out

/-- The calls of `handle_message` over the `ids_` snapshot, in order. -/
def loopCalls (env : Env) (pfds : List PollFd) : List Nat → Nat → PeerManager → List PeerEvent → List Call
  | [], _, _, _ => []
  | id :: ids, at_, pm, out =>
    let (next, events, _) := serveConnection env pm id (reventsAt pfds at_) out
    serveCalls env pm id (reventsAt pfds at_) out ++ loopCalls env pfds ids (at_ + 1) next events

/-- Acts on sockets, with the calls of `handle_message` among them. -/
inductive Hears : World → List Call → World → Prop
  | done (w : World) : Hears w [] w
  | moved (w next last : World) (a : Act) (calls : List Call) (reading : a.Reading) (silent : ∀ id, a ≠ .message id)
      (moves : act w a = some next) (more : Hears next calls last) : Hears w calls last
  | heard (w last : World) (id : Nat) (x : Call) (calls : List Call) (next : nextCall w.pm w.out id = some x)
      (more : Hears ⟨x.settled w.pm, x.result.out⟩ calls last) : Hears w (x :: calls) last

theorem Hears.trans {first second third : World} {early late : List Call} (begun : Hears first early second)
    (ended : Hears second late third) : Hears first (early ++ late) third := by
  induction begun with
  | done w => exact ended
  | moved w next last a calls reading silent moves more ih =>
    exact .moved w next _ a _ reading silent moves (ih ended)
  | heard w last id x calls next more ih => exact .heard w _ id x _ next (ih ended)

theorem nextCall_some {pm : PeerManager} {out : List PeerEvent} {id : Nat} {x : Call}
    (next : nextCall pm out id = some x) :
    ∃ c msg rest, pm.conns.find? id = some c ∧ extractMessage c.readBuffer = .ok (some (msg, rest)) ∧
      x = ⟨id, { c with readBuffer := rest, handled := c.handled ++ [msg] }, pm.pieceFrequency, out, msg⟩ := by
  obtain ⟨c, found, taken⟩ := Option.bind_eq_some_iff.mp next
  split at taken
  · rename_i msg rest extracted
    exact ⟨c, msg, rest, found, extracted, (Option.some.inj taken).symm⟩
  · cases taken

theorem act_call {w : World} {id : Nat} {x : Call} (next : nextCall w.pm w.out id = some x) :
    act w (.message id) = some ⟨x.settled w.pm, x.result.out⟩ := by
  obtain ⟨c, msg, rest, found, extracted, rfl⟩ := nextCall_some next
  simp only [act, nextMessage, found, extracted, Option.bind_some, Option.map_some, Call.settled, Call.result]

theorem Hears.reads {w last : World} {calls : List Call} (hears : Hears w calls last) : Reads w last := by
  induction hears with
  | done w => exact Relation.ReflTransGen.refl
  | moved w next last a calls reading silent moves more ih => exact (Reaches.one a reading moves).trans ih
  | heard w last id x calls next more ih => exact (Reaches.one (.message id) trivial (act_call next)).trans ih

theorem readMessages_none {pm : PeerManager} {out : List PeerEvent} {id : Nat} (fuel : Nat)
    (nothing : nextCall pm out id = none) : ∃ failed, readMessages id (fuel + 1) pm out = (pm, out, failed) := by
  rw [readMessages]
  split
  · exact ⟨_, rfl⟩
  · exact ⟨_, rfl⟩
  · exact ⟨_, rfl⟩
  · rename_i msg rest extracted
    obtain ⟨c, found, framed⟩ := Option.map_eq_some_iff.mp extracted
    rw [nextCall, found, Option.bind_some, framed] at nothing
    cases nothing

theorem readMessages_some {pm : PeerManager} {out : List PeerEvent} {id : Nat} {x : Call} (fuel : Nat)
    (next : nextCall pm out id = some x) : readMessages id (fuel + 1) pm out =
      match x.result.thrown with
      | none => readMessages id fuel (x.settled pm) x.result.out
      | some _ => (x.settled pm, x.result.out, true) := by
  obtain ⟨c, msg, rest, found, extracted, rfl⟩ := nextCall_some next
  simp only [readMessages, found, extracted, Option.map_some, handleMessage, Table.find_modify, if_true,
    Table.modify_modify, Call.settled, Call.result]
  cases thrown : (PeerConnection.handle { c with readBuffer := rest, handled := c.handled ++ [msg] } id
    pm.pieceFrequency out msg).thrown <;> rfl

theorem hears_readMessages (id fuel : Nat) (pm : PeerManager) (out : List PeerEvent) :
    Hears ⟨pm, out⟩ (readCalls id fuel pm out)
      ⟨(readMessages id fuel pm out).1, (readMessages id fuel pm out).2.1⟩ := by
  induction fuel generalizing pm out with
  | zero => exact .done _
  | succ fuel ih =>
    rw [readCalls]
    cases next : nextCall pm out id with
    | none =>
      obtain ⟨failed, same⟩ := readMessages_none fuel next
      rw [same]
      exact .done _
    | some x =>
      rw [readMessages_some fuel next]
      dsimp only
      cases thrown : x.result.thrown with
      | none => exact .heard ⟨pm, out⟩ _ id x _ next (ih (x.settled pm) x.result.out)
      | some problem => exact .heard ⟨pm, out⟩ _ id x _ next (.done _)

theorem hears_readConnection (env : Env) (pm : PeerManager) (id : Nat) (c : PeerConnection) (out : List PeerEvent) :
    Hears ⟨pm, out⟩ (connectionCalls env pm id c out)
      ⟨(readConnection env pm id c out).1, (readConnection env pm id c out).2.1⟩ := by
  unfold readConnection connectionCalls
  cases env.recv c.sock.fd with
  | transient => exact .done _
  | failed => exact .done _
  | data bytes =>
    dsimp only
    split
    · exact .done _
    · have received := receive_moves pm out id (bytes.take 16384) (fun c => env.clock (.receive c.sock.fd))
      exact .moved ⟨pm, out⟩ _ _ (.receive _ _ _) _ trivial nofun received (hears_readMessages id _ _ out)

theorem hears_serveConnection (env : Env) (pm : PeerManager) (id rev : Nat) (out : List PeerEvent) :
    Hears ⟨pm, out⟩ (serveCalls env pm id rev out)
      ⟨(serveConnection env pm id rev out).1, (serveConnection env pm id rev out).2.1⟩ := by
  unfold serveConnection serveCalls
  split
  · exact .done _
  · cases found : pm.conns.find? id with
    | none => exact .done _
    | some c =>
      by_cases writing : writable rev = true
      · have drained := drain_moves pm out id c found (env.send c.sock.fd) (env.clock (.drain c.sock.fd))
        have silent (peer : Nat) :
            Act.drain id (env.send c.sock.fd) (env.clock (.drain c.sock.fd)) ≠ .message peer := by
          intro same
          cases same
        simp only [if_pos writing]
        split
        · exact .done _
        · split
          · exact .moved ⟨pm, out⟩ _ _ (.drain _ _ _) _ trivial silent drained (.done _)
          · exact .moved ⟨pm, out⟩ _ _ (.drain _ _ _) _ trivial silent drained (hears_readConnection env _ id _ out)
      · simp only [if_neg writing, Bool.false_eq_true, if_false, Table.modify_same pm.conns id c found]
        split
        · exact .done _
        · exact hears_readConnection env pm id c out

theorem hears_serveLoop (env : Env) (pfds : List PollFd) (ids : List Nat) (at_ : Nat) (pm : PeerManager)
    (out : List PeerEvent) :
    Hears ⟨pm, out⟩ (loopCalls env pfds ids at_ pm out)
      ⟨(serveLoop env pfds ids at_ pm out).1, (serveLoop env pfds ids at_ pm out).2.1⟩ := by
  induction ids generalizing at_ pm out with
  | nil => exact .done _
  | cons id ids ih => exact (hears_serveConnection env pm id (reventsAt pfds at_) out).trans (ih (at_ + 1) _ _)

theorem reads_serveLoop (env : Env) (pfds : List PollFd) (ids : List Nat) (at_ : Nat) (pm : PeerManager)
    (out : List PeerEvent) :
    Reads ⟨pm, out⟩ ⟨(serveLoop env pfds ids at_ pm out).1, (serveLoop env pfds ids at_ pm out).2.1⟩ :=
  (hears_serveLoop env pfds ids at_ pm out).reads

end Reading

def answerOf (block : Block) : BlockRequest := ⟨block.pieceIndex, block.offset, block.data.length⟩

theorem extractMessage_short {buf msg rest : Bytes}
    (extracted : extractMessage buf = .ok (some (msg, rest))) : msg.length ≤ 2 ^ 20 := by
  unfold extractMessage at extracted
  split at extracted
  · cases extracted
  · dsimp only at extracted
    split at extracted
    · cases extracted
    · split at extracted
      · cases extracted
      · cases extracted
        rw [List.length_take]
        omega

section Rules

/-- What `PeerManager` can do to one connection on its own. -/
inductive Touches : PeerConnection → PeerConnection → Prop
  | drain (c : PeerConnection) (result : Send) (now : Time) : Touches c (c.drain result now).1
  | receive (c : PeerConnection) (chunk : Bytes) (now : Time) :
      Touches c { c with
        sock := { c.sock with received := c.sock.received ++ chunk }
        readBuffer := c.readBuffer ++ chunk
        lastReceived := now }
  | message (c : PeerConnection) (rest : Bytes) (id : Nat) (frequency : List Nat)
      (out : List PeerEvent) (msg : Bytes) (handled : Handled)
      (extracted : extractMessage c.readBuffer = .ok (some (msg, rest)))
      (effect : PeerConnection.Effect { c with readBuffer := rest, handled := c.handled ++ [msg] } id
        frequency out msg handled) :
      Touches c handled.conn
  | ping (c : PeerConnection) (empty : c.writeBuffer = []) :
      Touches c (c.enqueue (Message.bytes .keepAlive))

theorem find_modify_some {conns : Table Nat PeerConnection} {id other : Nat} {after : PeerConnection}
    {change : PeerConnection → PeerConnection}
    (found : (conns.modify other change).find? id = some after) :
    ∃ c, conns.find? id = some c ∧ (after = c ∨ id = other ∧ after = change c) := by
  rw [Table.find_modify] at found
  split at found
  · rename_i here
    obtain ⟨c, present, same⟩ := Option.map_eq_some_iff.mp found
    exact ⟨c, present, Or.inr ⟨here, same.symm⟩⟩
  · exact ⟨after, found, Or.inl rfl⟩

/-- After one act a connection is as it was, touched, or new. The third case is an
identifier that came around again: `emplace` finds the old connection. -/
theorem act_connection {w next : World} {a : Act} {id : Nat} {after : PeerConnection} (own : a.Own)
    (moves : act w a = some next) (found : next.pm.conns.find? id = some after) :
    (∃ c, w.pm.conns.find? id = some c ∧ (after = c ∨ a.Serving ∧ Touches c after ∨
      id = w.pm.promoted % 2 ^ 32 ∧
        after = c.enqueue (Message.bytes (.handshake w.pm.torrent w.pm.peerId)))) ∨
    (w.pm.conns.find? id = none ∧ id = w.pm.promoted % 2 ^ 32 ∧
      next.pm.promoted = w.pm.promoted + 1 ∧ .joined id ∈ next.out ∧
      ∃ sock peer now answers, a = .promote sock peer now answers ∧
        after = newcomer w.pm sock peer now answers) := by
  have stays : ∀ present : w.pm.conns.find? id = some after,
      ∃ c, w.pm.conns.find? id = some c ∧ (after = c ∨ a.Serving ∧ Touches c after ∨
        id = w.pm.promoted % 2 ^ 32 ∧
          after = c.enqueue (Message.bytes (.handshake w.pm.torrent w.pm.peerId))) :=
    fun present => ⟨after, present, Or.inl rfl⟩
  cases a with
  | send | ban | collect => cases own
  | promote sock peer now answers =>
    cases taken : w.pm.conns.find? (w.pm.promoted % 2 ^ 32) with
    | none =>
      obtain ⟨-, same⟩ := act_promote taken moves
      subst same
      rw [Table.find_emplace _ _ _ _ taken] at found
      split at found
      · rename_i here
        cases found
        exact Or.inr ⟨here ▸ taken, here, rfl, by simp [here], sock, peer, now, answers, rfl, rfl⟩
      · exact Or.inl (stays found)
    | some old =>
      simp only [act, PeerManager.promote, Table.emplace_present _ _ _ old taken] at moves
      split at moves
      · cases moves
        cases answers with
        | false => exact Or.inl (stays found)
        | true =>
          obtain ⟨c, present, same | ⟨here, same⟩⟩ := find_modify_some found
          · exact Or.inl ⟨c, present, Or.inl same⟩
          · exact Or.inl ⟨c, present, Or.inr (Or.inr ⟨here, same⟩)⟩
      · cases moves
  | drain other result now =>
    cases moves
    obtain ⟨c, present, same | ⟨-, same⟩⟩ := find_modify_some found
    · exact Or.inl ⟨c, present, Or.inl same⟩
    · exact Or.inl ⟨c, present, Or.inr (Or.inl ⟨trivial, same ▸ Touches.drain c result now⟩)⟩
  | receive other chunk now =>
    cases moves
    obtain ⟨c, present, same | ⟨-, same⟩⟩ := find_modify_some found
    · exact Or.inl ⟨c, present, Or.inl same⟩
    · exact Or.inl ⟨c, present, Or.inr (Or.inl ⟨trivial, same ▸ Touches.receive c chunk now⟩)⟩
  | message other =>
    obtain ⟨old, msg, rest, handled, located, extracted, effect, same⟩ := act_message moves
    subst same
    obtain ⟨c, present, same | ⟨here, same⟩⟩ := find_modify_some found
    · exact Or.inl ⟨c, present, Or.inl same⟩
    · subst here
      rw [located] at present
      cases present
      exact Or.inl ⟨old, located,
        Or.inr (Or.inl ⟨trivial, same ▸ Touches.message old rest _ _ _ _ handled extracted effect⟩)⟩
  | drop other =>
    rcases act_drop moves with ⟨-, same⟩ | ⟨old, -, same⟩
    · subst same
      exact Or.inl (stays found)
    · subst same
      rw [Table.find_erase] at found
      split at found
      · cases found
      · exact Or.inl (stays found)
  | keepAlives now =>
    cases moves
    simp only [keepAlives, Table.find_update] at found
    obtain ⟨c, present, same⟩ := Option.map_eq_some_iff.mp found
    refine Or.inl ⟨c, present, ?_⟩
    split at same
    · rename_i silent
      exact Or.inr (Or.inl ⟨trivial, same ▸ Touches.ping c silent.1⟩)
    · exact Or.inl same.symm
  | outside other =>
    cases moves
    exact Or.inl (stays found)

theorem reaches_each {kind : Act → Prop} {each : PeerConnection → Prop} {w next : World}
    (moves : Reaches act kind w next) (own : ∀ a, kind a → a.Own)
    (fresh : ∀ pm sock peer now answers, kind (.promote sock peer now answers) →
      each (newcomer pm sock peer now answers))
    (answered : ∀ c torrent peerId, each c → each (c.enqueue (Message.bytes (.handshake torrent peerId))))
    (touched : ∀ a c after, kind a → a.Serving → each c → Touches c after → each after)
    (holds : ∀ id c, w.pm.conns.find? id = some c → each c) :
    ∀ id c, next.pm.conns.find? id = some c → each c := by
  have step : ∀ state after a, kind a →
      (∀ id c, state.pm.conns.find? id = some c → each c) → act state a = some after →
      ∀ id c, after.pm.conns.find? id = some c → each c := by
    intro state after a kept before moved id c found
    rcases act_connection (own a kept) moved found with
      ⟨old, present, same | ⟨serving, touch⟩ | ⟨-, same⟩⟩ | ⟨-, -, -, -, sock, peer, now, answers, promotes, same⟩
    · rw [same]
      exact before id old present
    · exact touched a old c kept serving (before id old present) touch
    · rw [same]
      exact answered old _ _ (before id old present)
    · rw [same]
      exact fresh state.pm sock peer now answers (promotes ▸ kept)
  exact Reaches.preserves step moves holds

theorem acts_each {each : PeerConnection → Prop} {w next : World} (moves : Acts w next)
    (fresh : ∀ pm sock peer now answers, each (newcomer pm sock peer now answers))
    (answered : ∀ c torrent peerId, each c → each (c.enqueue (Message.bytes (.handshake torrent peerId))))
    (touched : ∀ c after, each c → Touches c after → each after)
    (holds : ∀ id c, w.pm.conns.find? id = some c → each c) :
    ∀ id c, next.pm.conns.find? id = some c → each c :=
  reaches_each moves (fun _ own => own) (fun pm sock peer now answers _ => fresh pm sock peer now answers)
    answered (fun _ c after _ _ => touched c after) holds

theorem act_events {w next : World} {a : Act} (own : a.Own) (moves : act w a = some next)
    (event : PeerEvent) (member : event ∈ next.out) :
    event ∈ w.out ∨ event = .joined (w.pm.promoted % 2 ^ 32) ∨
      (∃ id c, w.pm.conns.find? id = some c ∧ event = .dropped id (requestsOf c.pending)) ∨
      (∃ id c msg rest handled, w.pm.conns.find? id = some c ∧
        extractMessage c.readBuffer = .ok (some (msg, rest)) ∧
        PeerConnection.Effect { c with readBuffer := rest, handled := c.handled ++ [msg] } id
          w.pm.pieceFrequency w.out msg handled ∧
        event ∈ handled.out) := by
  cases a with
  | send | ban | collect => cases own
  | promote sock peer now answers =>
    simp only [act, PeerManager.promote] at moves
    split at moves
    · cases moves
      rcases List.mem_append.mp member with old | new
      · exact Or.inl old
      · exact Or.inr (Or.inl (List.mem_singleton.mp new))
    · cases moves
  | message id =>
    obtain ⟨c, msg, rest, handled, located, extracted, effect, same⟩ := act_message moves
    subst same
    exact Or.inr (Or.inr (Or.inr ⟨id, c, msg, rest, handled, located, extracted, effect, member⟩))
  | drop id =>
    rcases act_drop moves with ⟨-, same⟩ | ⟨c, present, same⟩
    · subst same
      exact Or.inl member
    · subst same
      rcases List.mem_append.mp member with old | new
      · exact Or.inl old
      · exact Or.inr (Or.inr (Or.inl ⟨id, c, present, List.mem_singleton.mp new⟩))
  | drain id result now => cases moves; exact Or.inl member
  | receive id chunk now => cases moves; exact Or.inl member
  | keepAlives now => cases moves; exact Or.inl member
  | outside other => cases moves; exact Or.inl member

theorem eraseLast_subset (test : PeerEvent → Bool) (events : List PeerEvent) (event : PeerEvent)
    (member : event ∈ PeerConnection.eraseLast test events) : event ∈ events := by
  rw [PeerConnection.eraseLast, List.mem_reverse] at member
  exact List.mem_reverse.mp (List.mem_of_mem_eraseP member)

end Rules

def Room (pm : PeerManager) : Prop :=
  pm.conns.size + pm.inbound.length + pm.outbound.length ≤ pm.maxPeers

section Handshakes

/-- A part of the handshake passes that turned at most `freed` entries into peers. -/
structure Admits (env : Env) (before after : World) (freed : Nat) : Prop where
  acts : Reaches act (Act.Joins env before.pm) before after
  size : after.pm.conns.size ≤ before.pm.conns.size + freed
  inbound : after.pm.inbound = before.pm.inbound
  outbound : after.pm.outbound = before.pm.outbound
  maxPeers : after.pm.maxPeers = before.pm.maxPeers
  setting : SameSetting before.pm after.pm

theorem Admits.nothing (env : Env) (w : World) (freed : Nat) : Admits env w w freed :=
  ⟨Relation.ReflTransGen.refl, Nat.le_add_right _ _, rfl, rfl, rfl, SameSetting.refl w.pm⟩

theorem Admits.trans {env : Env} {first second third : World} {few more : Nat}
    (early : Admits env first second few) (late : Admits env second third more) :
    Admits env first third (few + more) := by
  have before := early.size
  have after := late.size
  have onward := late.acts
  rw [early.setting.joins env] at onward
  exact ⟨early.acts.trans onward, by omega, late.inbound.trans early.inbound,
    late.outbound.trans early.outbound, late.maxPeers.trans early.maxPeers,
    early.setting.trans late.setting⟩

theorem promote_admits (env : Env) (pm : PeerManager) (sock : Socket) (peer : Peer) (now : Time)
    (read : now = env.clock (.promote sock.fd)) (out : List PeerEvent) (answers : Bool)
    (room : pm.conns.size < pm.maxPeers)
    (whole : sock.received.length = 68) (welcome : pm.verifyHandshake sock.received peer = true) :
    Admits env ⟨pm, out⟩
      ⟨if answers = true then
        (pm.promote sock peer now out).1.sendTo (pm.promoted % 2 ^ 32) (.handshake pm.torrent pm.peerId)
        else (pm.promote sock peer now out).1, (pm.promote sock peer now out).2⟩ 1 := by
  refine ⟨Reaches.one (.promote sock peer now answers) ⟨⟨trivial, ?_⟩, id, ?_⟩ ?_, ?_, ?_, ?_, ?_, ?_⟩
  · rintro _ _ _ _ ⟨⟩
    exact ⟨whole, welcome⟩
  · rintro _ _ _ _ ⟨⟩
    exact read
  · simp only [act, if_pos room]
  · have grown := Table.size_emplace pm.conns (pm.promoted % 2 ^ 32)
    cases answers with
    | false => exact grown _
    | true =>
      simp only [if_true, sendTo, Table.size_modify]
      exact grown _
  · cases answers <;> rfl
  · cases answers <;> rfl
  · cases answers <;> rfl
  · cases answers <;> exact ⟨rfl, rfl, rfl, rfl⟩

theorem readHandshake_whole {env : Env} {fd : Nat} {buffer hs : Bytes}
    (read : readHandshake env fd buffer = (.promoted, hs)) : hs.length = 68 := by
  unfold readHandshake at read
  split at read
  · cases read
  · cases read
  · rename_i bytes _
    dsimp only at read
    split at read
    · cases read
    · rename_i some_
      split at read
      · cases read
      · rename_i enough
        cases read
        have room : buffer.length < 68 := by
          apply Nat.lt_of_not_le
          intro full
          exact some_ (by rw [Nat.sub_eq_zero_of_le full, List.take_zero])
        rw [List.length_append, List.length_take] at enough ⊢
        omega

theorem advanceInbound_admits (env : Env) (pm : PeerManager) (p : PendingInbound)
    (out : List PeerEvent) (room : pm.conns.size < pm.maxPeers) :
    Admits env ⟨pm, out⟩
      ⟨(advanceInbound env pm p out).2.1, (advanceInbound env pm p out).2.2⟩
      (1 - (advanceInbound env pm p out).1.toList.length) := by
  unfold advanceInbound
  split
  · exact Admits.nothing _ _ _
  · exact Admits.nothing _ _ _
  · rename_i hs read
    split
    · exact Admits.nothing _ _ _
    · rename_i passed
      exact promote_admits env pm _ p.peer _ rfl out true room (readHandshake_whole read)
        (Bool.not_eq_false _ ▸ passed)

theorem toList_short {α : Type} (kept : Option α) : kept.toList.length ≤ 1 := by
  cases kept <;> simp

theorem inboundLoop_admits (env : Env) (pfds : List PollFd) (pending : List PendingInbound) (at_ : Nat)
    (pm : PeerManager) (out : List PeerEvent) (room : pm.conns.size + pending.length ≤ pm.maxPeers) :
    (inboundLoop env pfds pending at_ pm out).1.length ≤ pending.length ∧
      Admits env ⟨pm, out⟩
        ⟨(inboundLoop env pfds pending at_ pm out).2.1, (inboundLoop env pfds pending at_ pm out).2.2⟩
        (pending.length - (inboundLoop env pfds pending at_ pm out).1.length) := by
  induction pending generalizing at_ pm out with
  | nil => exact ⟨Nat.le_refl _, Admits.nothing _ _ _⟩
  | cons p rest ih =>
    rw [List.length_cons] at room
    simp only [inboundLoop, List.length_append, List.length_cons]
    generalize stepped : (if reventsAt pfds at_ = 0 then (some p, pm, out)
      else if readable (reventsAt pfds at_) = true then advanceInbound env pm p out
      else (none, pm, out)) = result
    obtain ⟨kept, next, events⟩ := result
    have first : Admits env ⟨pm, out⟩ ⟨next, events⟩ (1 - kept.toList.length) := by
      split at stepped
      · cases stepped
        exact Admits.nothing _ _ _
      · split at stepped
        · have advanced := advanceInbound_admits env pm p out (by omega)
          rw [stepped] at advanced
          exact advanced
        · cases stepped
          exact Admits.nothing _ _ _
    have short := toList_short kept
    have size := first.size
    have limit := first.maxPeers
    dsimp only at size limit ⊢
    obtain ⟨fewer, others⟩ := ih (at_ + 1) next events (by omega)
    refine ⟨by omega, ?_⟩
    have both := first.trans others
    have count : 1 - kept.toList.length +
        (rest.length - (inboundLoop env pfds rest (at_ + 1) next events).1.length) =
        rest.length + 1 - (kept.toList.length +
          (inboundLoop env pfds rest (at_ + 1) next events).1.length) := by
      omega
    rw [count] at both
    exact both

def slots (result : HandshakeResult) : Nat := if result = .keep then 1 else 0

theorem advanceOutbound_admits (env : Env) (pm : PeerManager) (p : PendingOutbound) (rev : Nat)
    (out : List PeerEvent) (room : pm.conns.size < pm.maxPeers) :
    Admits env ⟨pm, out⟩
      ⟨(advanceOutbound env pm p rev out).2.2.1, (advanceOutbound env pm p rev out).2.2.2⟩
      (1 - slots (advanceOutbound env pm p rev out).1) := by
  unfold advanceOutbound
  split
  · split
    · exact Admits.nothing _ _ _
    · exact Admits.nothing _ _ _
  · split
    · exact Admits.nothing _ _ _
    · split
      · exact Admits.nothing _ _ _
      · exact Admits.nothing _ _ _
      · rename_i hs read
        split
        · exact Admits.nothing _ _ _
        · rename_i passed
          exact promote_admits env pm _ p.peer _ rfl out false room (readHandshake_whole read)
            (Bool.not_eq_false _ ▸ passed)

theorem forget_admits (env : Env) (pm : PeerManager) (out : List PeerEvent) (result : HandshakeResult)
    (peer : Peer) :
    Admits env ⟨pm, out⟩
      ⟨if result = .drop then { pm with known := pm.known.erase (key peer) } else pm, out⟩ 0 := by
  split
  · exact ⟨joins_outside pm out _ rfl _ _, Nat.le_refl _, rfl, rfl, rfl, rfl, rfl, rfl, rfl⟩
  · exact Admits.nothing _ _ _

theorem outboundLoop_admits (env : Env) (pfds : List PollFd) (pending : List PendingOutbound)
    (at_ : Nat) (pm : PeerManager) (out : List PeerEvent)
    (room : pm.conns.size + pending.length ≤ pm.maxPeers) :
    (outboundLoop env pfds pending at_ pm out).1.length ≤ pending.length ∧
      Admits env ⟨pm, out⟩
        ⟨(outboundLoop env pfds pending at_ pm out).2.1, (outboundLoop env pfds pending at_ pm out).2.2⟩
        (pending.length - (outboundLoop env pfds pending at_ pm out).1.length) := by
  induction pending generalizing at_ pm out with
  | nil => exact ⟨Nat.le_refl _, Admits.nothing _ _ _⟩
  | cons p rest ih =>
    rw [List.length_cons] at room
    simp only [outboundLoop, List.length_cons]
    generalize stepped : (if reventsAt pfds at_ = 0 then (HandshakeResult.keep, p, pm, out)
      else advanceOutbound env pm p (reventsAt pfds at_) out) = result
    obtain ⟨verdict, q, next, events⟩ := result
    have first : Admits env ⟨pm, out⟩ ⟨next, events⟩ (1 - slots verdict) := by
      split at stepped
      · cases stepped
        exact Admits.nothing _ _ _
      · have advanced := advanceOutbound_admits env pm p (reventsAt pfds at_) out (by omega)
        rw [stepped] at advanced
        exact advanced
    have cleared := first.trans (forget_admits env next events verdict p.peer)
    dsimp only
    generalize (if verdict = .drop then { next with known := next.known.erase (key p.peer) }
      else next) = left at cleared ⊢
    have size := cleared.size
    have limit := cleared.maxPeers
    dsimp only at size limit
    have taken : slots verdict ≤ 1 := by
      unfold slots
      split <;> omega
    obtain ⟨fewer, others⟩ := ih (at_ + 1) left events (by omega)
    have count : (if verdict = .keep then q :: (outboundLoop env pfds rest (at_ + 1) left events).1
        else (outboundLoop env pfds rest (at_ + 1) left events).1).length =
        slots verdict + (outboundLoop env pfds rest (at_ + 1) left events).1.length := by
      unfold slots
      split
      · rw [List.length_cons]
        omega
      · omega
    rw [count]
    refine ⟨by omega, ?_⟩
    have both := cleared.trans others
    have freed : 1 - slots verdict + 0 +
        (rest.length - (outboundLoop env pfds rest (at_ + 1) left events).1.length) =
        rest.length + 1 - (slots verdict +
          (outboundLoop env pfds rest (at_ + 1) left events).1.length) := by
      omega
    rw [freed] at both
    exact both

theorem inboundPass_joins (env : Env) (pfds : List PollFd) (pm : PeerManager) (out : List PeerEvent)
    (room : Room pm) :
    Reaches act (Act.Joins env pm) ⟨pm, out⟩
        ⟨(inboundPass env pfds pm out).1, (inboundPass env pfds pm out).2⟩ ∧
      Room (inboundPass env pfds pm out).1 ∧ SameSetting pm (inboundPass env pfds pm out).1 := by
  have limit : pm.conns.size + pm.inbound.length + pm.outbound.length ≤ pm.maxPeers := room
  obtain ⟨fewer, admits⟩ := inboundLoop_admits env pfds pm.inbound pm.inboundAt pm out (by omega)
  unfold inboundPass
  generalize inboundLoop env pfds pm.inbound pm.inboundAt pm out = result at fewer admits ⊢
  obtain ⟨still, next, events⟩ := result
  dsimp only at fewer admits ⊢
  refine ⟨admits.acts.trans (joins_outside _ _ _ rfl _ _), ?_, ?_⟩
  · have size := admits.size
    have dialing := congrArg List.length admits.outbound
    have most := admits.maxPeers
    dsimp only at size dialing most
    simp only [Room]
    omega
  · exact ⟨admits.setting.torrent, admits.setting.peerId, admits.setting.banned, admits.setting.ids⟩

theorem outboundPass_joins (env : Env) (pfds : List PollFd) (pm : PeerManager) (out : List PeerEvent)
    (room : Room pm) :
    Reaches act (Act.Joins env pm) ⟨pm, out⟩
        ⟨(outboundPass env pfds pm out).1, (outboundPass env pfds pm out).2⟩ ∧
      Room (outboundPass env pfds pm out).1 ∧ SameSetting pm (outboundPass env pfds pm out).1 := by
  have limit : pm.conns.size + pm.inbound.length + pm.outbound.length ≤ pm.maxPeers := room
  obtain ⟨fewer, admits⟩ := outboundLoop_admits env pfds pm.outbound pm.outboundAt pm out (by omega)
  unfold outboundPass
  generalize outboundLoop env pfds pm.outbound pm.outboundAt pm out = result at fewer admits ⊢
  obtain ⟨still, next, events⟩ := result
  dsimp only at fewer admits ⊢
  refine ⟨admits.acts.trans (joins_outside _ _ _ rfl _ _), ?_, ?_⟩
  · have size := admits.size
    have waiting := congrArg List.length admits.inbound
    have most := admits.maxPeers
    dsimp only at size waiting most
    simp only [Room]
    omega
  · exact ⟨admits.setting.torrent, admits.setting.peerId, admits.setting.banned, admits.setting.ids⟩

end Handshakes

section Rounds

theorem Frame.room {before after : PeerManager} (frame : Frame before after) (room : Room before) :
    Room after := by
  have limit : before.conns.size + before.inbound.length + before.outbound.length ≤ before.maxPeers :=
    room
  have size := frame.size
  rw [Room, frame.inbound, frame.outbound, frame.maxPeers]
  omega

/-- A call that touches no established peer and bans nobody. -/
structure Apart (before after : PeerManager) : Prop where
  same : after = withOutside before after
  room : Room before → Room after

theorem Apart.refl (pm : PeerManager) : Apart pm pm := ⟨rfl, id⟩

theorem Apart.trans {first second third : PeerManager} (early : Apart first second)
    (late : Apart second third) : Apart first third := by
  refine ⟨?_, fun room => late.room (early.room room)⟩
  rw [late.same, early.same]
  rfl

theorem Apart.conns {before after : PeerManager} (apart : Apart before after) :
    after.conns = before.conns := by
  rw [apart.same]
  rfl

theorem Apart.promoted {before after : PeerManager} (apart : Apart before after) :
    after.promoted = before.promoted := by
  rw [apart.same]
  rfl

theorem Apart.vets {before after : PeerManager} (apart : Apart before after) (out : List PeerEvent)
    (start : PeerManager) : Reaches act (Act.Vets start) ⟨before, out⟩ ⟨after, out⟩ :=
  Reaches.one (.outside after) ⟨trivial, by simp⟩ (by rw [act, ← apart.same])

theorem acceptAll_apart (env : Env) (accepted : List Accepted) (pm : PeerManager) :
    Apart pm (accepted.foldl (acceptOne env) pm) := by
  induction accepted generalizing pm with
  | nil => exact Apart.refl pm
  | cons a rest ih =>
    have first : Apart pm (acceptOne env pm a) := by
      unfold acceptOne
      split
      · exact Apart.refl pm
      · rename_i space
        split
        · exact Apart.refl pm
        · refine ⟨rfl, fun _ => ?_⟩
          simp only [Room, List.length_append, List.length_singleton]
          omega
    exact first.trans (ih (acceptOne env pm a))

theorem dialLoop_apart (env : Env) (waiting : List Peer) (attempt : Nat) (pm : PeerManager) :
    Apart pm (dialLoop env waiting attempt pm) := by
  induction waiting generalizing attempt pm with
  | nil => exact ⟨rfl, id⟩
  | cons p rest ih =>
    rw [dialLoop]
    split
    · rename_i space
      dsimp only
      split
      · have forgotten : Apart pm { pm with known := pm.known.erase (key p) } := ⟨rfl, id⟩
        exact forgotten.trans (ih (attempt + 1) _)
      · rename_i o _
        have grown : Apart pm { pm with outbound := pm.outbound ++ [o] } := by
          refine ⟨rfl, fun _ => ?_⟩
          simp only [Room, List.length_append, List.length_singleton]
          omega
        exact grown.trans (ih (attempt + 1) _)
    · exact ⟨rfl, id⟩

theorem dialMore_apart (env : Env) (pm : PeerManager) : Apart pm (dialMore env pm) :=
  dialLoop_apart env pm.candidates 0 pm

theorem queuePeers_frame (peers : List Peer) (pm : PeerManager) :
    ∃ known candidates, queuePeers peers pm = { pm with known := known, candidates := candidates } := by
  induction peers generalizing pm with
  | nil => exact ⟨_, _, rfl⟩
  | cons p peers ih =>
    rw [queuePeers]
    split
    · exact ⟨_, _, rfl⟩
    · split
      · exact ih pm
      · obtain ⟨known, candidates, same⟩ := ih { pm with
          known := insert (key p) pm.known
          candidates := pm.candidates ++ [p] }
        exact ⟨known, candidates, same⟩

theorem queuePeers_apart (peers : List Peer) (pm : PeerManager) : Apart pm (queuePeers peers pm) := by
  obtain ⟨known, candidates, same⟩ := queuePeers_frame peers pm
  rw [same]
  exact ⟨rfl, id⟩

theorem addPeers_apart (env : Env) (pm : PeerManager) (peers : List Peer) :
    Apart pm (addPeers env pm peers) :=
  (queuePeers_apart peers pm).trans (dialMore_apart env _)

theorem buildFds_apart (pm : PeerManager) (order : List Nat) : Apart pm (buildFds pm order).2 :=
  ⟨rfl, id⟩

theorem expire_apart (pm : PeerManager) (timeout now later : Time) :
    Apart pm (expireOutbound (expireInbound pm timeout now) later) := by
  refine ⟨rfl, fun room => ?_⟩
  have limit : pm.conns.size + pm.inbound.length + pm.outbound.length ≤ pm.maxPeers := room
  have waiting := List.length_filter_le (fun p => decide (¬ p.started < now - timeout)) pm.inbound
  have dialing := List.length_filter_le (fun p => decide (¬ p.deadline ≤ later)) pm.outbound
  simp only [Room, expireOutbound, expireInbound]
  omega

theorem acceptReady_apart (env : Env) (pfds : List PollFd) (pm : PeerManager) :
    Apart pm (if pm.listenSock ≠ none ∧ reventsAt pfds 0 &&& pollIn ≠ 0 then acceptNew env pm
      else pm) := by
  split
  · unfold acceptNew
    split
    · exact Apart.refl pm
    · exact acceptAll_apart env env.accepts pm
  · exact Apart.refl pm

def admitted (env : Env) (pfds : List PollFd) (pm : PeerManager) : World :=
  let (pm, out) := inboundPass env pfds pm []
  let (pm, out) := outboundPass env pfds pm out
  ⟨pm, out⟩

theorem servePass_admitted (env : Env) (pfds : List PollFd) (pm : PeerManager) :
    servePass env pfds pm = serveLoop env pfds (admitted env pfds pm).pm.ids (admitted env pfds pm).pm.connsAt
      (admitted env pfds pm).pm (admitted env pfds pm).out := rfl

/-- The calls of `handle_message` in one `handle_events`. -/
def roundCalls (env : Env) (pfds : List PollFd) (pm : PeerManager) : List Call :=
  loopCalls env pfds (admitted env pfds pm).pm.ids (admitted env pfds pm).pm.connsAt (admitted env pfds pm).pm
    (admitted env pfds pm).out

theorem hears_servePass (env : Env) (pfds : List PollFd) (pm : PeerManager) :
    Hears (admitted env pfds pm) (roundCalls env pfds pm)
      ⟨(servePass env pfds pm).1, (servePass env pfds pm).2.1⟩ :=
  hears_serveLoop env pfds _ _ _ _

theorem admitted_joins (env : Env) (pfds : List PollFd) (pm : PeerManager) (room : Room pm) :
    Reaches act (Act.Joins env pm) ⟨pm, []⟩ (admitted env pfds pm) ∧ Room (admitted env pfds pm).pm ∧
      SameSetting pm (admitted env pfds pm).pm := by
  obtain ⟨waiting, first, same⟩ := inboundPass_joins env pfds pm [] room
  obtain ⟨dialing, second, still⟩ := outboundPass_joins env pfds (inboundPass env pfds pm []).1
    (inboundPass env pfds pm []).2 first
  rw [same.joins env] at dialing
  exact ⟨waiting.trans dialing, second, same.trans still⟩

theorem servePass_vets (env : Env) (pfds : List PollFd) (pm : PeerManager) (room : Room pm) :
    Reaches act (Act.Vets pm) ⟨pm, []⟩
        ⟨(servePass env pfds pm).1, (servePass env pfds pm).2.1⟩ ∧
      Room (servePass env pfds pm).1 := by
  obtain ⟨joined, space, -⟩ := admitted_joins env pfds pm room
  have served := reads_serveLoop env pfds (admitted env pfds pm).pm.ids (admitted env pfds pm).pm.connsAt
    (admitted env pfds pm).pm (admitted env pfds pm).out
  rw [servePass_admitted]
  exact ⟨(joins_vets joined).trans (served.serves.vets _), served.serves.frame.room space⟩

/-- Behind the served peers `handle_events` drops, pings, and then leaves the connections alone. -/
theorem handleEvents_phases (env : Env) (pfds : List PollFd) (pm : PeerManager) :
    ∃ ids, (handleEvents env pfds pm).2 =
        ((servePass env pfds pm).1.dropAll (servePass env pfds pm).2.1 ids).2 ∧
      Apart (((servePass env pfds pm).1.dropAll (servePass env pfds pm).2.1 ids).1.keepAlives (env.clock .sweep))
        (handleEvents env pfds pm).1 :=
  ⟨(servePass env pfds pm).2.2 ++ idlePeers (servePass env pfds pm).1 env.order (env.clock .sweep), rfl,
    ((expire_apart _ kHandshakeTimeout (env.clock .expireInbound) (env.clock .expireOutbound)).trans
      (acceptReady_apart env pfds _)).trans (dialMore_apart env _)⟩

theorem handleEvents_vets (env : Env) (pfds : List PollFd) (pm : PeerManager) (room : Room pm) :
    Reaches act (Act.Vets pm) ⟨pm, []⟩
        ⟨(handleEvents env pfds pm).1, (handleEvents env pfds pm).2⟩ ∧
      Room (handleEvents env pfds pm).1 := by
  obtain ⟨served, first⟩ := servePass_vets env pfds pm room
  obtain ⟨ids, events, last⟩ := handleEvents_phases env pfds pm
  have swept := serves_dropAll (servePass env pfds pm).1 (servePass env pfds pm).2.1 ids
  have second := swept.frame.room first
  rw [events]
  generalize (servePass env pfds pm).1.dropAll (servePass env pfds pm).2.1 ids = left at swept second last ⊢
  have pinged : Serves ⟨left.1, left.2⟩ ⟨left.1.keepAlives (env.clock .sweep), left.2⟩ :=
    Reaches.one (.keepAlives (env.clock .sweep)) trivial rfl
  exact ⟨((served.trans (swept.vets _)).trans (pinged.vets _)).trans (last.vets left.2 _),
    last.room (pinged.frame.room second)⟩

theorem handleEvents_acts (env : Env) (pfds : List PollFd) (pm : PeerManager) (room : Room pm) :
    Acts ⟨pm, []⟩ ⟨(handleEvents env pfds pm).1, (handleEvents env pfds pm).2⟩ ∧
      Room (handleEvents env pfds pm).1 := by
  obtain ⟨vets, kept⟩ := handleEvents_vets env pfds pm room
  exact ⟨vets_acts vets, kept⟩

theorem ban_acts (pm : PeerManager) (host : Bytes) (order : List Nat) (room : Room pm) :
    Reaches act (fun _ => True) ⟨pm, []⟩ ⟨(pm.ban host order).1, (pm.ban host order).2⟩ ∧
      Room (pm.ban host order).1 := by
  unfold ban
  split
  · exact ⟨Relation.ReflTransGen.refl, room⟩
  · have dropped := serves_dropAll { pm with banned := insert host pm.banned } []
      ((pm.conns.arrange order).filter (fun id =>
        decide ((pm.conns.find? id).map (fun c => c.peer.host) = some host)))
    have listed : Reaches act (fun _ => True) ⟨pm, []⟩
        ⟨{ pm with banned := insert host pm.banned }, []⟩ :=
      Reaches.one (.ban host) trivial rfl
    exact ⟨listed.trans (Reaches.widen (fun _ _ => trivial) dropped), dropped.frame.room room⟩

end Rounds

end TorrentPeer.PeerManager
