import TorrentPeer.Runtime.Streams

/-! From `build_fds` through `poll` to `handle_events`: every result is read for the socket it
belongs to, and every handshake in progress comes out in one of four ways. -/

namespace TorrentPeer.PeerManager

open Transition Session

/-- The places of a list of descriptors: the listening socket, then the three groups behind each
other, in the order in which they are walked. -/
structure Layout (pm : PeerManager) (pfds : List PollFd) : Prop where
  first : pm.inboundAt = pm.listenSock.toList.length
  second : pm.outboundAt = pm.inboundAt + pm.inbound.length
  third : pm.connsAt = pm.outboundAt + pm.outbound.length
  whole : pfds.length = pm.connsAt + pm.ids.length
  snapshot : pm.ids.Perm pm.conns.keys
  listening : ∀ fd, pm.listenSock = some fd → (pfds[0]?).map PollFd.fd = some fd
  waiting : ∀ i p, pm.inbound[i]? = some p → (pfds[pm.inboundAt + i]?).map PollFd.fd = some p.sock.fd
  dialing : ∀ i p, pm.outbound[i]? = some p → (pfds[pm.outboundAt + i]?).map PollFd.fd = some p.sock.fd
  established : ∀ k id, pm.ids[k]? = some id → ∃ c, pm.conns.find? id = some c ∧
    (pfds[pm.connsAt + k]?).map PollFd.fd = some c.sock.fd

def served (env : Env) (pfds : List PollFd) (pm : PeerManager) (k : Nat) : World :=
  let (next, events, _) := serveLoop env pfds (pm.ids.take k) pm.connsAt (admitted env pfds pm).pm
    (admitted env pfds pm).out
  ⟨next, events⟩

/-- What `serveConnection` makes of the peer at place `k`, with the pollfd of that place. -/
def turnOf (env : Env) (pfds : List PollFd) (pm : PeerManager) (k id : Nat) : PeerManager × List PeerEvent × Bool :=
  serveConnection env (served env pfds pm k).pm id (reventsAt pfds (pm.connsAt + k)) (served env pfds pm k).out

/-- One turn of the loop over `ids_`: its assert holds, the peer is served from its own pollfd, no other peer is
touched, and the peer is listed for the drop if its turn says so. -/
structure Turnwise (env : Env) (pfds : List PollFd) (pm : PeerManager) (k id : Nat) : Prop where
  assert : ∃ c, (served env pfds pm k).pm.conns.find? id = some c ∧
    (pfds[pm.connsAt + k]?).map PollFd.fd = some c.sock.fd
  moves : served env pfds pm (k + 1) = ⟨(turnOf env pfds pm k id).1, (turnOf env pfds pm k id).2.1⟩
  others : ∀ other ≠ id,
    (served env pfds pm (k + 1)).pm.conns.find? other = (served env pfds pm k).pm.conns.find? other
  fails : id ∈ (servePass env pfds pm).2.2 ↔ (turnOf env pfds pm k id).2.2 = true

/-- The round is one turn for each peer of the snapshot, and then only drops and keep-alives. -/
structure Serving (env : Env) (pfds : List PollFd) (pm : PeerManager) : Prop where
  once : pm.ids.Nodup
  first : served env pfds pm 0 = admitted env pfds pm
  turns : ∀ k id, pm.ids[k]? = some id → Turnwise env pfds pm k id
  last : served env pfds pm pm.ids.length = ⟨(servePass env pfds pm).1, (servePass env pfds pm).2.1⟩
  events : ∃ drops, (∀ event ∈ drops, ∃ id reqs, event = .dropped id reqs) ∧
    (handleEvents env pfds pm).2 = (served env pfds pm pm.ids.length).out ++ drops
  kept : ∀ id c, (handleEvents env pfds pm).1.conns.find? id = some c → id ∉ (servePass env pfds pm).2.2 ∧
    ∃ old, (served env pfds pm pm.ids.length).pm.conns.find? id = some old ∧ Pinged (env.clock .sweep) old c

/-- The asserts of `handle_events` before and after that loop, and the read of `pfds[0]`. -/
structure Asserts (env : Env) (pfds : List PollFd) (pm : PeerManager) : Prop where
  waiting : ∀ i p, pm.inbound[i]? = some p → (pfds[pm.inboundAt + i]?).map PollFd.fd = some p.sock.fd
  dialing : ∀ i p, (inboundPass env pfds pm []).1.outbound[i]? = some p →
    (pfds[(inboundPass env pfds pm []).1.outboundAt + i]?).map PollFd.fd = some p.sock.fd
  listening : (expired env (swept env pfds pm).pm).listenSock ≠ none → 0 < pfds.length

/-- What becomes of a handshake in progress during a round. -/
inductive Fate (α : Type) where
  | pending (entry : α)
  | promoted (sock : Socket) (peer : Peer)
  | dropped
  | expired

namespace Fate

variable {α : Type}

def pending? : Fate α → Option α
  | .pending entry => some entry
  | _ => none

def promoted? : Fate α → Option (Socket × Peer)
  | .promoted sock peer => some (sock, peer)
  | _ => none

end Fate

def Turn.fate {α : Type} (late : α → Prop) [DecidablePred late] : Turn α → Fate α
  | .waits entry => if late entry then .expired else .pending entry
  | .joins sock peer => .promoted sock peer
  | .closes => .dropped

/-- The fates of `inbound_`, each by the entry of its own index. -/
def inboundFates (env : Env) (pfds : List PollFd) (pm : PeerManager) : List (Fate PendingInbound) :=
  (inboundTurns env pfds pm).map (Turn.fate (fun p => p.started < env.clock .expireInbound - kHandshakeTimeout))

def outboundFates (env : Env) (pfds : List PollFd) (pm : PeerManager) : List (Fate PendingOutbound) :=
  (outboundTurns env pfds pm).map (Turn.fate (fun p => p.deadline ≤ env.clock .expireOutbound))

section Fates

variable {α : Type} (late : α → Prop) [DecidablePred late] (turns : List (Turn α))

theorem fates_pending :
    (turns.map (Turn.fate late)).filterMap Fate.pending? =
      (turns.filterMap Turn.waiting).filter (fun p => decide (¬ late p)) := by
  induction turns with
  | nil => rfl
  | cons turn rest ih =>
    cases turn with
    | waits entry =>
      rw [List.map_cons, Turn.fate, List.filterMap_cons_some (f := Turn.waiting) rfl]
      split
      · rename_i old
        rw [List.filter_cons_of_neg (by simp [old])]
        exact ih
      · rename_i young
        rw [List.filter_cons_of_pos (by simp [young])]
        exact congrArg (entry :: ·) ih
    | joins sock peer => exact ih
    | closes => exact ih

theorem fates_promoted :
    (turns.map (Turn.fate late)).filterMap Fate.promoted? = turns.filterMap Turn.joining := by
  induction turns with
  | nil => rfl
  | cons turn rest ih =>
    cases turn with
    | waits entry =>
      rw [List.map_cons, Turn.fate]
      split
      · exact ih
      · exact ih
    | joins sock peer => exact congrArg ((sock, peer) :: ·) ih
    | closes => exact ih

end Fates

section Layouts

variable (pm : PeerManager) (order : List Nat) (revents : Nat → Nat)

theorem answered_fd (pfds : List PollFd) (i : Nat) :
    ((answered pfds revents)[i]?).map PollFd.fd = (pfds[i]?).map PollFd.fd := by
  rw [answered, List.getElem?_mapIdx, Option.map_map]
  rfl

theorem filterMap_present {α β : Type} (find : Nat → Option α) (make : α → β) (ids : List Nat)
    (present : ∀ id ∈ ids, ∃ c, find id = some c) :
    (ids.filterMap (fun id => (find id).map make)).length = ids.length ∧
      ∀ k id : Nat, ids[k]? = some id → ∃ c, find id = some c ∧
        (ids.filterMap (fun id => (find id).map make))[k]? = some (make c) := by
  induction ids with
  | nil => exact ⟨rfl, nofun⟩
  | cons first rest ih =>
    obtain ⟨c, found⟩ := present first (List.mem_cons_self ..)
    obtain ⟨length, each⟩ := ih (fun id member => present id (List.mem_cons_of_mem _ member))
    rw [List.filterMap_cons_some (b := make c) (by rw [found]; rfl)]
    refine ⟨congrArg (· + 1) length, fun k id here => ?_⟩
    cases k with
    | zero =>
      cases here
      exact ⟨c, found, rfl⟩
    | succ k => exact each k id here

theorem getElem?_behind {α : Type} (front back : List α) (i at_ : Nat) (place : at_ = front.length + i) :
    (front ++ back)[at_]? = back[i]? := by
  rw [place, List.getElem?_append_right (Nat.le_add_right _ _), Nat.add_sub_cancel_left]

theorem getElem?_within {α β : Type} (items : List α) (make : α → β) (back : List β) (i : Nat) (item : α)
    (here : items[i]? = some item) : (items.map make ++ back)[i]? = some (make item) := by
  have low : i < items.length := (List.getElem?_eq_some_iff.mp here).1
  rw [List.getElem?_append_left (by rwa [List.length_map]), List.getElem?_map, here]
  rfl

theorem buildFds_layout : Layout (pm.buildFds order).2 (answered (pm.buildFds order).1 revents) := by
  have there : ∀ id ∈ pm.conns.arrange order, ∃ c, pm.conns.find? id = some c :=
    fun id member => (Table.arrange_member _ _ _).mp member
  obtain ⟨count, each⟩ := filterMap_present pm.conns.find? (fun c =>
    PollFd.mk c.sock.fd (if c.writeBuffer = [] then pollIn else pollIn ||| pollOut) 0) (pm.conns.arrange order) there
  refine ⟨?_, ?_, ?_, ?_, Table.arrange_perm _ _, ?_, ?_, ?_, ?_⟩
  · exact List.length_map ..
  · simp [buildFds]
  · simp [buildFds]
  · simp only [buildFds, answered, List.length_mapIdx, List.length_append, count]
  · intro fd listens
    have same : pm.listenSock = some fd := listens
    rw [answered_fd]
    simp [buildFds, same]
  · intro i p here
    rw [answered_fd]
    simp only [buildFds, List.append_assoc]
    rw [getElem?_behind _ _ i _ rfl, getElem?_within pm.inbound _ _ i p here]
    rfl
  · intro i p here
    rw [answered_fd]
    simp only [buildFds]
    rw [List.append_assoc, getElem?_behind _ _ i _ (by rw [List.length_append]),
      getElem?_within pm.outbound _ _ i p here]
    rfl
  · intro k id here
    obtain ⟨c, found, slot⟩ := each k id here
    refine ⟨c, found, ?_⟩
    rw [answered_fd]
    simp only [buildFds]
    rw [getElem?_behind _ _ k _ (by simp only [List.length_append]), slot]
    rfl

end Layouts

section Serving

theorem drain_fd (c : PeerConnection) (result : Send) (now : Time) : (c.drain result now).1.sock.fd = c.sock.fd := by
  obtain ⟨_, _, _, _, _, same⟩ := c.drain_shape result now
  rw [same]

theorem effect_fd {c : PeerConnection} {id : Nat} {frequency : List Nat} {out : List PeerEvent} {msg : Bytes}
    {handled : Handled} (effect : PeerConnection.Effect c id frequency out msg handled) :
    handled.conn.sock.fd = c.sock.fd := by
  cases effect with
  | cancelled index offset length =>
    obtain ⟨_, _, same⟩ := c.removeQueuedPiece_shape index offset length
    rw [same]
  | _ => rfl

theorem act_sockets {w next : World} {a : Act} (reading : a.Reading) (moves : act w a = some next) :
    KeepsSockets w.pm next.pm := by
  cases a with
  | drain id result now =>
    cases moves
    exact modify_sockets w.pm id _ (fun c _ => drain_fd c result now)
  | receive id chunk now =>
    cases moves
    exact modify_sockets w.pm id _ (fun _ _ => rfl)
  | message id =>
    obtain ⟨c, msg, rest, handled, found, -, effect, same⟩ := act_message moves
    subst same
    have kept : KeepsSockets w.pm { w.pm with conns := w.pm.conns.modify id (fun _ => handled.conn) } := by
      apply modify_sockets
      intro d present
      rw [found] at present
      cases present
      have same := effect_fd effect
      exact same
    exact kept
  | _ => cases reading

theorem Reads.sockets {w next : World} (reads : Reads w next) : KeepsSockets w.pm next.pm := by
  have step : ∀ state after a, Act.Reading a → KeepsSockets w.pm state.pm → act state a = some after →
      KeepsSockets w.pm after.pm :=
    fun _ _ _ reading before moves => before.trans (act_sockets reading moves)
  exact Reaches.preserves step reads (KeepsSockets.refl w.pm)

variable (env : Env) (pfds : List PollFd)

theorem serveLoop_append (front back : List Nat) (at_ : Nat) (pm : PeerManager) (out : List PeerEvent) :
    let before := serveLoop env pfds front at_ pm out
    let after := serveLoop env pfds back (at_ + front.length) before.1 before.2.1
    serveLoop env pfds (front ++ back) at_ pm out = (after.1, after.2.1, before.2.2 ++ after.2.2) := by
  induction front generalizing at_ pm out with
  | nil => rfl
  | cons id front ih =>
    have place : at_ + (id :: front).length = at_ + 1 + front.length := by
      rw [List.length_cons]
      omega
    dsimp only at ih ⊢
    rw [place, List.cons_append]
    simp only [serveLoop, ih]
    split <;> rfl

theorem serveLoop_drops (ids : List Nat) (at_ : Nat) (pm : PeerManager) (out : List PeerEvent) :
    (serveLoop env pfds ids at_ pm out).2.2 ⊆ ids := by
  induction ids generalizing at_ pm out with
  | nil => exact List.Subset.refl []
  | cons id ids ih =>
    have later := ih (at_ + 1) (serveConnection env pm id (reventsAt pfds at_) out).1
      (serveConnection env pm id (reventsAt pfds at_) out).2.1
    rw [serveLoop]
    dsimp only
    split
    · exact List.cons_subset_cons id later
    · exact List.subset_cons_of_subset id later

/-- The loop up to one peer, its turn, and the loop behind it. -/
theorem serveLoop_split (front : List Nat) (id : Nat) (back : List Nat) (at_ : Nat) (pm : PeerManager)
    (out : List PeerEvent) (distinct : (front ++ id :: back).Nodup) :
    let before := serveLoop env pfds front at_ pm out
    let turn := serveConnection env before.1 id (reventsAt pfds (at_ + front.length)) before.2.1
    (serveLoop env pfds (front ++ [id]) at_ pm out).1 = turn.1 ∧
      (serveLoop env pfds (front ++ [id]) at_ pm out).2.1 = turn.2.1 ∧
      (id ∈ (serveLoop env pfds (front ++ id :: back) at_ pm out).2.2 ↔ turn.2.2 = true) := by
  have joined := serveLoop_append env pfds front [id] at_ pm out
  have whole := serveLoop_append env pfds front (id :: back) at_ pm out
  dsimp only at joined whole ⊢
  rw [joined, whole]
  refine ⟨rfl, rfl, ?_⟩
  obtain ⟨-, rest, apart⟩ := List.nodup_append.mp distinct
  have earlier : id ∉ (serveLoop env pfds front at_ pm out).2.2 := by
    intro member
    exact apart id (serveLoop_drops env pfds front at_ pm out member) id (List.mem_cons_self ..) rfl
  rw [serveLoop]
  dsimp only
  generalize serveConnection env (serveLoop env pfds front at_ pm out).1 id (reventsAt pfds (at_ + front.length))
    (serveLoop env pfds front at_ pm out).2.1 = turn
  have later : id ∉ (serveLoop env pfds back (at_ + front.length + 1) turn.1 turn.2.1).2.2 :=
    fun member => (List.nodup_cons.mp rest).1 (serveLoop_drops env pfds back _ _ _ member)
  rw [List.mem_append]
  constructor
  · intro listed
    have own := listed.resolve_left earlier
    by_contra fine
    rw [if_neg fine] at own
    exact later own
  · intro failed
    rw [if_pos failed]
    exact Or.inr (List.mem_cons_self ..)

end Serving

section Rounds

variable {env : Env} {pfds : List PollFd} {pm : PeerManager}

theorem Layout.asserts (layout : Layout pm pfds) : Asserts env pfds pm := by
  obtain ⟨known, admission⟩ := admitted_turns env pfds pm
  have waited := (inboundPass_turns env pfds pm).frame
  dsimp only at waited
  refine ⟨layout.waiting, ?_, ?_⟩
  · intro i p here
    have dialing : (inboundPass env pfds pm []).1.outbound = pm.outbound := by rw [waited]
    have place : (inboundPass env pfds pm []).1.outboundAt = pm.outboundAt := by rw [waited]
    rw [dialing] at here
    rw [place]
    exact layout.dialing i p here
  · intro listens
    have same : (expired env (swept env pfds pm).pm).listenSock = pm.listenSock :=
      (swept_serves env pfds pm).frame.listenSock.trans (by rw [admission.frame])
    rw [same] at listens
    obtain ⟨fd, some_⟩ := Option.ne_none_iff_exists'.mp listens
    have first := layout.listening fd some_
    obtain ⟨pfd, there, -⟩ := Option.map_eq_some_iff.mp first
    exact (List.getElem?_eq_some_iff.mp there).1

theorem servePass_served (env : Env) (pfds : List PollFd) (pm : PeerManager) :
    servePass env pfds pm = serveLoop env pfds pm.ids pm.connsAt (admitted env pfds pm).pm
    (admitted env pfds pm).out := by
  obtain ⟨known, admission⟩ := admitted_turns env pfds pm
  have ids : (admitted env pfds pm).pm.ids = pm.ids := by rw [admission.frame]
  have place : (admitted env pfds pm).pm.connsAt = pm.connsAt := by rw [admission.frame]
  rw [servePass_admitted, ids, place]

theorem Layout.turnwise (layout : Layout pm pfds) {k id : Nat} (here : pm.ids[k]? = some id) :
    Turnwise env pfds pm k id := by
  obtain ⟨low, same⟩ := List.getElem?_eq_some_iff.mp here
  have distinct : pm.ids.Nodup := layout.snapshot.nodup_iff.mpr pm.conns.distinct
  have split : pm.ids = pm.ids.take k ++ id :: pm.ids.drop (k + 1) := by
    rw [← same, List.cons_getElem_drop_succ, List.take_append_drop]
  have next : pm.ids.take (k + 1) = pm.ids.take k ++ [id] := by
    rw [List.take_add_one, here]
    rfl
  have length : (pm.ids.take k).length = k := List.length_take_of_le (Nat.le_of_lt low)
  have parts : (pm.ids.take k ++ id :: pm.ids.drop (k + 1)).Nodup := split ▸ distinct
  obtain ⟨manager, events, listed⟩ := serveLoop_split env pfds (pm.ids.take k) id (pm.ids.drop (k + 1)) pm.connsAt
    (admitted env pfds pm).pm (admitted env pfds pm).out parts
  rw [length] at manager events listed
  rw [← next] at manager events
  rw [← split, ← servePass_served] at listed
  have moves : served env pfds pm (k + 1) = ⟨(turnOf env pfds pm k id).1, (turnOf env pfds pm k id).2.1⟩ :=
    congrArg₂ World.mk manager events
  refine ⟨?_, moves, ?_, listed⟩
  · obtain ⟨known, admission⟩ := admitted_turns env pfds pm
    obtain ⟨c, found, slot⟩ := layout.established k id here
    obtain ⟨d, present, kept⟩ := admission.sockets id c found
    obtain ⟨e, there, still⟩ := (reads_serveLoop env pfds (pm.ids.take k) pm.connsAt (admitted env pfds pm).pm
      (admitted env pfds pm).out).sockets id d present
    exact ⟨e, there, by rw [still, kept]; exact slot⟩
  · intro other apart
    rw [moves]
    exact serveConnection_others env _ apart

theorem Layout.serving (layout : Layout pm pfds) : Serving env pfds pm := by
  have last : served env pfds pm pm.ids.length = ⟨(servePass env pfds pm).1, (servePass env pfds pm).2.1⟩ := by
    rw [served, List.take_length, servePass_served]
  refine ⟨layout.snapshot.nodup_iff.mpr pm.conns.distinct, rfl, fun k id here => layout.turnwise here, last, ?_, ?_⟩
  · rw [last]
    exact ⟨_, dropAll_dropped _ _, (dropAll_out _ _ _).2⟩
  · rw [last]
    intro id c found
    exact handleEvents_kept env pfds pm found

theorem handleEvents_fates (env : Env) (pfds : List PollFd) (pm : PeerManager) :
    (inboundFates env pfds pm).filterMap Fate.pending? <+: (handleEvents env pfds pm).1.inbound ∧
    (outboundFates env pfds pm).filterMap Fate.pending? <+: (handleEvents env pfds pm).1.outbound ∧
    joinedIds (handleEvents env pfds pm).2 =
      (List.range (arrivals env pfds pm).length).map (fun j => (pm.promoted + j) % 2 ^ 32) := by
  obtain ⟨known, admission⟩ := admitted_turns env pfds pm
  have serves := swept_serves env pfds pm
  obtain ⟨more, grown⟩ := accepted_inbound env pfds (expired env (swept env pfds pm).pm)
  obtain ⟨dialed, -⟩ := dialMore_dialed env (accepted env pfds (expired env (swept env pfds pm).pm))
  have waits : (swept env pfds pm).pm.inbound = (inboundTurns env pfds pm).filterMap Turn.waiting := by
    rw [serves.frame.inbound, admission.frame]
  have dials : (swept env pfds pm).pm.outbound = (outboundTurns env pfds pm).filterMap Turn.waiting := by
    rw [serves.frame.outbound, admission.frame]
  rw [handleEvents_stages]
  refine ⟨?_, ?_, ?_⟩
  · have same : (dialMore env (accepted env pfds (expired env (swept env pfds pm).pm))).inbound =
        (expired env (swept env pfds pm).pm).inbound ++ more := by
      rw [dialed.frame, grown]
    dsimp only
    rw [same, inboundFates, fates_pending, ← waits]
    exact List.prefix_append _ more
  · have kept : (accepted env pfds (expired env (swept env pfds pm).pm)).outbound =
        (expired env (swept env pfds pm).pm).outbound := by
      rw [grown]
    rw [outboundFates, fates_pending, ← dials]
    have longer := dialed.outbound
    rw [kept] at longer
    exact longer
  · dsimp only
    rw [serves.joined, admission.out]
    simp only [joinedIds, List.nil_append, List.filterMap_map]
    exact congrFun (List.filterMap_eq_map (f := fun j => (pm.promoted + j) % 2 ^ 32)) _

end Rounds

section Numbers

variable {pm : PeerManager}

theorem Numbered.fewer {next : PeerManager} (numbered : Numbered pm) (same : next.promoted = pm.promoted)
    (old : ∀ id c, next.conns.find? id = some c → ∃ d, pm.conns.find? id = some d) : Numbered next := by
  intro id c found
  obtain ⟨d, present⟩ := old id c found
  rw [same]
  exact numbered id d present

theorem acts_numbered {w next : World} (moves : Acts w next)
    (numbered : w.pm.promoted ≤ 2 ^ 32 → Numbered w.pm) : next.pm.promoted ≤ 2 ^ 32 → Numbered next.pm := by
  have step : ∀ state after a, Act.Own a → (state.pm.promoted ≤ 2 ^ 32 → Numbered state.pm) →
      act state a = some after → after.pm.promoted ≤ 2 ^ 32 → Numbered after.pm := by
    intro state after a own before moved few id c found
    have grown := (act_fixed own moved).promoted
    rcases act_connection own moved found with ⟨old, present, -⟩ | ⟨-, here, more, -⟩
    · exact Nat.lt_of_lt_of_le (before (Nat.le_trans grown few) id old present) grown
    · rw [here, Nat.mod_eq_of_lt (by omega)]
      omega
  exact Reaches.preserves step moves numbered

theorem modify_numbered (numbered : Numbered pm) (id : Nat) (change : PeerConnection → PeerConnection) :
    Numbered { pm with conns := pm.conns.modify id change } := by
  refine numbered.fewer rfl ?_
  intro other c found
  obtain ⟨old, present, -⟩ := find_modify_some found
  exact ⟨old, present⟩

theorem perform_numbered (op : Op) (room : Room pm) (numbered : pm.promoted ≤ 2 ^ 32 → Numbered pm) :
    (pm.perform op).1.promoted ≤ 2 ^ 32 → Numbered (pm.perform op).1 := by
  cases op with
  | buildFds order => exact numbered
  | handleEvents env pfds => exact acts_numbered (handleEvents_acts env pfds pm room).1 numbered
  | addPeers env peers =>
    intro few
    have apart := addPeers_apart env pm peers
    have same : (pm.perform (.addPeers env peers)).1.promoted = pm.promoted := apart.promoted
    refine (numbered (same ▸ few)).fewer same ?_
    intro id c found
    exact ⟨c, apart.conns ▸ found⟩
  | send id message now => exact fun few => modify_numbered (numbered few) id _
  | broadcastHave index =>
    intro few
    refine (numbered few).fewer rfl ?_
    intro id c found
    simp only [perform, broadcastHave, Table.find_update] at found
    obtain ⟨old, present, -⟩ := Option.map_eq_some_iff.mp found
    exact ⟨old, present⟩
  | ban host order =>
    intro few
    by_cases already : host ∈ pm.banned
    · simp only [perform, ban, if_pos already] at few ⊢
      exact numbered few
    · simp only [perform, ban_fresh host order already] at few ⊢
      have same : (({ pm with banned := insert host pm.banned } : PeerManager).dropAll []
          (pm.peersOf host order)).1.promoted = pm.promoted := (dropAll_frame _ _ _).promoted
      refine (numbered (same ▸ few)).fewer same ?_
      intro id c found
      rw [dropAll_conns] at found
      split at found
      · cases found
      · exact ⟨c, found⟩
  | expire id pending snubbed => exact fun few => modify_numbered (numbered few) id _

theorem used_numbered (used : Used pm) : pm.promoted ≤ 2 ^ 32 → Numbered pm := by
  induction used with
  | start pm begins =>
    intro _ id c found
    obtain ⟨torrent, peerId, listenSock, maxPeers, created⟩ := begins
    rw [(create_empty created).1] at found
    cases found
  | next pm after op reached moved ih =>
    cases moved
    exact perform_numbered op (used_room reached) ih

end Numbers

/-- In every state, whatever `poll` answers to the descriptors of `build_fds`: the list has one
place for the listening socket, each handshake and each connection, behind each other; every
assert of `handle_events` holds where it is made; each connection of the snapshot has exactly one
turn, with the pollfd of its own descriptor, and what `handle_events` returns are the results of
these turns but for drops and keep-alives; and every handshake in progress, judged by the place of
its own descriptor, is afterwards still pending, promoted, dropped or expired. The promoted are
exactly those that the events report, and as long as connection numbers have not run out each of
them is a connection on its own socket as soon as the handshakes are done. -/
theorem poll_results_routed (pm : PeerManager) (used : Used pm) (order : List Nat) (revents : Nat → Nat) (env : Env) :
    let pfds := answered (pm.buildFds order).1 revents
    let built := (pm.buildFds order).2
    let promoted := (inboundFates env pfds built).filterMap Fate.promoted? ++
      (outboundFates env pfds built).filterMap Fate.promoted?
    Layout built pfds ∧ Asserts env pfds built ∧ Serving env pfds built ∧
    (inboundFates env pfds built).length = pm.inbound.length ∧
    (outboundFates env pfds built).length = pm.outbound.length ∧
    (inboundFates env pfds built).filterMap Fate.pending? <+: (built.handleEvents env pfds).1.inbound ∧
    (outboundFates env pfds built).filterMap Fate.pending? <+: (built.handleEvents env pfds).1.outbound ∧
    joinedIds (built.handleEvents env pfds).2 =
      (List.range promoted.length).map (fun j => (pm.promoted + j) % 2 ^ 32) ∧
    (pm.promoted + promoted.length ≤ 2 ^ 32 → ∀ j sock peer, promoted[j]? = some (sock, peer) →
      ∃ c, (admitted env pfds built).pm.conns.find? (pm.promoted + j) = some c ∧ c.sock = sock ∧ c.peer = peer) := by
  intro pfds built promoted
  have layout : Layout built pfds := buildFds_layout pm order revents
  have same : promoted = arrivals env pfds built := by
    show (inboundFates env pfds built).filterMap Fate.promoted? ++ _ = _
    rw [inboundFates, outboundFates, fates_promoted, fates_promoted]
    rfl
  obtain ⟨waits, dials, joined⟩ := handleEvents_fates env pfds built
  rw [same]
  refine ⟨layout, layout.asserts, layout.serving, ?_, ?_, waits, dials, joined, ?_⟩
  · rw [inboundFates, List.length_map, inboundTurns, List.length_mapIdx]
    rfl
  · rw [outboundFates, List.length_map, outboundTurns, List.length_mapIdx]
    rfl
  intro few
  obtain ⟨known, admission⟩ := admitted_turns env pfds built
  have numbered : Numbered pm := used_numbered used (Nat.le_trans (Nat.le_add_right _ _) few)
  exact (admission.placed numbered few).2.2

theorem poll_results_routed_one_peer :
    ∃ pm, Used pm ∧ pm.conns.size = 1 ∧ ∀ revents env,
      Asserts env (answered (pm.buildFds []).1 revents) (pm.buildFds []).2 ∧
        Serving env (answered (pm.buildFds []).1 revents) (pm.buildFds []).2 := by
  have seen : oneArrival.map (fun pm => pm.conns.size) = some 1 := by decide +kernel
  obtain ⟨pm, ran, one⟩ := Option.map_eq_some_iff.mp seen
  have used := oneArrival_used ran
  refine ⟨pm, used, one, ?_⟩
  intro revents env
  obtain ⟨-, asserts, serving, -⟩ := poll_results_routed pm used [] revents env
  exact ⟨asserts, serving⟩

end TorrentPeer.PeerManager
