import TorrentPeer.Runtime.Identity
import TorrentPeer.Runtime.Streams

/-! What a peer has been told: our handshake, one Bitfield, and a Have for every piece since. -/

namespace TorrentPeer.Wire

open BigEndian

def haveIndex (m : Bytes) : Option Nat :=
  if m[4]? = some msgHave then some (readBe32 (m.drop 5)) else none

def isBitfield (m : Bytes) : Bool := decide (m[4]? = some msgBitfield)

def haves (messages : List Bytes) : List Nat := messages.filterMap haveIndex

def Message.Silent : Message → Prop
  | .handshake _ _ => False
  | .have_ _ => False
  | .bitfield _ => False
  | _ => True

theorem haveIndex_have {index : Nat} (small : index < 2 ^ 32) :
    haveIndex (Message.bytes (.have_ index)) = some index := by
  have kind : (Message.bytes (.have_ index))[4]? = some msgHave := buildMessage_id msgHave (be32 index)
  have payload : (Message.bytes (.have_ index)).drop 5 = be32 index := rfl
  rw [haveIndex, if_pos kind, payload, readBe32_be32 index small]

theorem haveIndex_other {id : UInt8} (payload : Bytes) (other : id ≠ msgHave) :
    haveIndex (buildMessage id payload) = none := by
  rw [haveIndex, buildMessage_id, if_neg]
  intro same
  exact other (Option.some.inj same)

theorem isBitfield_other {id : UInt8} (payload : Bytes) (other : id ≠ msgBitfield) :
    isBitfield (buildMessage id payload) = false := by
  rw [isBitfield, buildMessage_id, decide_eq_false_iff_not]
  intro same
  exact other (Option.some.inj same)

theorem silent_message {message : Message} (silent : message.Silent) :
    haveIndex message.bytes = none ∧ isBitfield message.bytes = false := by
  cases message with
  | handshake torrent peerId => cases silent
  | have_ index => cases silent
  | bitfield raw => cases silent
  | keepAlive => exact ⟨rfl, rfl⟩
  | choke => exact ⟨haveIndex_other _ (by decide), isBitfield_other _ (by decide)⟩
  | unchoke => exact ⟨haveIndex_other _ (by decide), isBitfield_other _ (by decide)⟩
  | interested => exact ⟨haveIndex_other _ (by decide), isBitfield_other _ (by decide)⟩
  | request req => exact ⟨haveIndex_other _ (by decide), isBitfield_other _ (by decide)⟩
  | piece index offset data => exact ⟨haveIndex_other _ (by decide), isBitfield_other _ (by decide)⟩

theorem haves_append (first second : List Bytes) : haves (first ++ second) = haves first ++ haves second :=
  List.filterMap_append

end TorrentPeer.Wire

namespace TorrentPeer.Session

open PeerManager Wire Transition

/-- What is enqueued before a peer is greeted: nothing for a peer we dialled, our handshake for
one that dialled us, and keep-alives only if the client may be slow. -/
def Opening (prompt : Prop) (hello : Bytes) (enqueued : List Bytes) : Prop :=
  ∃ pings, (∀ m ∈ pings, m = Message.bytes .keepAlive) ∧ (prompt → pings = []) ∧
    (enqueued = pings ∨ enqueued = hello :: pings)

/-- The Bitfield and the messages behind it announce exactly the pieces of `have_`, each once. -/
structure Announced (have_ field : Bitfield) (rest : List Bytes) : Prop where
  exact : ∀ i, have_.get i = true ↔ field.get i = true ∨ i ∈ haves rest
  once : (haves rest).Nodup
  fresh : ∀ i ∈ haves rest, field.get i = false
  single : ∀ m ∈ rest, isBitfield m = false

def Informed (prompt : Prop) (hello : Bytes) (have_ : Bitfield) (enqueued : List Bytes) : Prop :=
  ∃ before field rest, enqueued = before ++ Message.bytes (.bitfield field.bytes) :: rest ∧
    Opening prompt hello before ∧ field.bits = have_.bits ∧ Announced have_ field rest

section Telling

variable {prompt : Prop} {hello : Bytes} {have_ field : Bitfield} {rest enqueued : List Bytes}

theorem Announced.start (have_ : Bitfield) : Announced have_ have_ [] := by
  refine ⟨?_, List.nodup_nil, ?_, ?_⟩
  · intro i
    constructor
    · exact Or.inl
    · intro told
      exact told.resolve_right List.not_mem_nil
  · intro i told
    cases told
  · intro m member
    cases member

theorem Announced.silent (announced : Announced have_ field rest) {message : Message}
    (silent : message.Silent) : Announced have_ field (rest ++ [message.bytes]) := by
  obtain ⟨nothing, other⟩ := silent_message silent
  have same : haves (rest ++ [message.bytes]) = haves rest := by
    have last : haves [message.bytes] = [] := by
      simp only [haves, List.filterMap_cons, nothing, List.filterMap_nil]
    rw [haves_append, last, List.append_nil]
  refine ⟨?_, ?_, ?_, ?_⟩
  · rw [same]
    exact announced.exact
  · rw [same]
    exact announced.once
  · rw [same]
    exact announced.fresh
  · intro m member
    rcases List.mem_append.mp member with old | new
    · exact announced.single m old
    · rw [List.mem_singleton.mp new]
      exact other

theorem Announced.gain (announced : Announced have_ field rest) {next : Bitfield} {index : Nat}
    (small : index < 2 ^ 32) (wanted : have_.get index = false)
    (gained : ∀ j, next.get j = (decide (j = index) || have_.get j)) :
    Announced next field (rest ++ [Message.bytes (.have_ index)]) := by
  have same : haves (rest ++ [Message.bytes (.have_ index)]) = haves rest ++ [index] := by
    have last : haves [Message.bytes (.have_ index)] = [index] := by
      simp only [haves, List.filterMap_cons, haveIndex_have small, List.filterMap_nil]
    rw [haves_append, last]
  have untold : field.get index = false ∧ index ∉ haves rest := by
    have unsaid := mt (announced.exact index).mpr (by rw [wanted]; exact Bool.false_ne_true)
    obtain ⟨first, second⟩ := not_or.mp unsaid
    exact ⟨Bool.eq_false_iff.mpr first, second⟩
  refine ⟨?_, ?_, ?_, ?_⟩
  · intro i
    rw [same, gained, Bool.or_eq_true, decide_eq_true_eq, announced.exact i, List.mem_append,
      List.mem_singleton]
    constructor
    · intro told
      rcases told with here | said | later
      · exact Or.inr (Or.inr here)
      · exact Or.inl said
      · exact Or.inr (Or.inl later)
    · intro told
      rcases told with said | later | here
      · exact Or.inr (Or.inl said)
      · exact Or.inr (Or.inr later)
      · exact Or.inl here
  · rw [same]
    apply List.Nodup.append announced.once (List.nodup_singleton index)
    rw [List.disjoint_singleton]
    exact untold.2
  · intro i told
    rw [same] at told
    rcases List.mem_append.mp told with old | new
    · exact announced.fresh i old
    · rw [List.mem_singleton.mp new]
      exact untold.1
  · intro m member
    rcases List.mem_append.mp member with old | new
    · exact announced.single m old
    · rw [List.mem_singleton.mp new]
      exact isBitfield_other _ (by decide)

theorem Informed.silent (informed : Informed prompt hello have_ enqueued) {message : Message}
    (silent : message.Silent) : Informed prompt hello have_ (enqueued ++ [message.bytes]) := by
  obtain ⟨before, field, rest, split, opening, bits, announced⟩ := informed
  refine ⟨before, field, rest ++ [message.bytes], ?_, opening, bits, announced.silent silent⟩
  rw [split, List.append_assoc, List.cons_append]

theorem Informed.gain (informed : Informed prompt hello have_ enqueued) {next : Bitfield} {index : Nat}
    (small : index < 2 ^ 32) (wanted : have_.get index = false)
    (gained : ∀ j, next.get j = (decide (j = index) || have_.get j)) (width : next.bits = have_.bits) :
    Informed prompt hello next (enqueued ++ [Message.bytes (.have_ index)]) := by
  obtain ⟨before, field, rest, split, opening, bits, announced⟩ := informed
  refine ⟨before, field, rest ++ [Message.bytes (.have_ index)], ?_, opening, bits.trans width.symm,
    announced.gain small wanted gained⟩
  rw [split, List.append_assoc, List.cons_append]

theorem Opening.greet {c : PeerConnection} (opening : Opening prompt hello c.enqueued) (have_ : Bitfield)
    (complete : Bool) : Informed prompt hello have_ (greeted have_ complete c).enqueued := by
  have first : Informed prompt hello have_ (c.enqueued ++ [Message.bytes (.bitfield have_.bytes)]) :=
    ⟨c.enqueued, have_, [], rfl, opening, rfl, Announced.start have_⟩
  have second := @Informed.silent _ _ _ _ first .unchoke trivial
  cases complete with
  | true => exact second
  | false => exact @Informed.silent _ _ _ _ second .interested trivial

end Telling

section Queues

def Ahead (queue : List PeerEvent) : Prop :=
  queue.Pairwise (fun first second => ∀ id, second = .joined id → ∃ name, first = .joined name)

theorem Ahead.sublist {queue fewer : List PeerEvent} (ahead : Ahead queue) (part : fewer.Sublist queue) :
    Ahead fewer :=
  List.Pairwise.sublist part ahead

theorem Ahead.append {queue : List PeerEvent} (ahead : Ahead queue) {event : PeerEvent}
    (other : ∀ id, event ≠ .joined id) : Ahead (queue ++ [event]) := by
  apply List.pairwise_append.mpr
  refine ⟨ahead, List.pairwise_singleton _ _, ?_⟩
  intro first _ second last id joined
  rw [List.mem_singleton.mp last] at joined
  exact absurd joined (other id)

theorem Ahead.none_left {event : PeerEvent} {rest : List PeerEvent} (ahead : Ahead (event :: rest))
    (other : ∀ id, event ≠ .joined id) : joinedIds (event :: rest) = [] := by
  rw [List.eq_nil_iff_forall_not_mem]
  intro id waiting
  rcases List.mem_cons.mp ((mem_joinedIds _ _).mp waiting) with here | later
  · exact other id here.symm
  · obtain ⟨name, first⟩ := (List.pairwise_cons.mp ahead).1 _ later id rfl
    exact other name first

theorem eraseLast_sublist (test : PeerEvent → Bool) (events : List PeerEvent) :
    (PeerConnection.eraseLast test events).Sublist events := by
  have backwards := (List.eraseP_sublist (p := test) (l := events.reverse)).reverse
  rw [List.reverse_reverse] at backwards
  exact backwards

theorem effect_ahead {c : PeerConnection} {id : Nat} {frequency : List Nat} {out : List PeerEvent}
    {msg : Bytes} {handled : Handled} (effect : PeerConnection.Effect c id frequency out msg handled)
    (ahead : Ahead out) : Ahead handled.out := by
  cases effect with
  | unchoked => exact ahead.append (by simp)
  | choked => exact ahead.append (by simp)
  | asked req unchoked small index offset => exact ahead.append (by simp)
  | delivered k block size answered => exact ahead.append (by simp)
  | withdrawn req => exact ahead.sublist (eraseLast_sublist _ _)
  | flags choking interested got thrown => exact ahead
  | had index field fresh stored => exact ahead
  | announced payload field shape first parsed => exact ahead
  | cancelled index offset length => exact ahead

theorem serves_ahead {w next : World} (serves : Serves w next) (ahead : Ahead w.out) : Ahead next.out := by
  have step : ∀ state after a, Act.Serving a → Ahead state.out → act state a = some after → Ahead after.out := by
    intro state after a serving before moved
    cases a with
    | promote | send | outside | ban | collect => cases serving
    | drain id result now =>
      cases moved
      exact before
    | receive id chunk now =>
      cases moved
      exact before
    | keepAlives now =>
      cases moved
      exact before
    | message id =>
      obtain ⟨c, msg, rest, handled, -, -, effect, same⟩ := act_message moved
      rw [same]
      exact effect_ahead effect before
    | drop id =>
      rcases act_drop moved with ⟨-, same⟩ | ⟨c, -, same⟩
      · rw [same]
        exact before
      · rw [same]
        exact before.append (by simp)
  exact Reaches.preserves step serves ahead

theorem joins_arrivals {env : Env} {pm : PeerManager} {w next : World}
    (moves : Reaches act (Act.Joins env pm) w next)
    (arrivals : ∀ event ∈ w.out, ∃ id, event = .joined id) : ∀ event ∈ next.out, ∃ id, event = .joined id := by
  have step : ∀ state after a, Act.Joins env pm a → (∀ event ∈ state.out, ∃ id, event = .joined id) →
      act state a = some after → ∀ event ∈ after.out, ∃ id, event = .joined id := by
    intro state after a joins before moved event member
    obtain ⟨⟨own, -⟩, waiting, -⟩ := joins
    cases a with
    | send | ban | collect => cases own
    | promote sock peer now answers =>
      simp only [act, promote] at moved
      split at moved
      · cases moved
        rcases List.mem_append.mp member with old | new
        · exact before event old
        · exact ⟨_, List.mem_singleton.mp new⟩
      · cases moved
    | outside other =>
      cases moved
      exact before event member
    | drain id result now => exact absurd trivial waiting
    | receive id chunk now => exact absurd trivial waiting
    | message id => exact absurd trivial waiting
    | drop id => exact absurd trivial waiting
    | keepAlives now => exact absurd trivial waiting
  exact Reaches.preserves step moves arrivals

theorem arrivals_ahead {queue : List PeerEvent} (arrivals : ∀ event ∈ queue, ∃ id, event = .joined id) :
    Ahead queue :=
  List.pairwise_of_forall_mem_list (fun first here _ _ _ _ => arrivals first here)

theorem servePass_ahead (env : Env) (pfds : List PollFd) {pm : PeerManager} (room : Room pm) :
    Ahead (servePass env pfds pm).2.1 := by
  have arrivals := joins_arrivals (admitted_joins env pfds pm room).1 (by simp)
  rw [servePass_admitted]
  exact serves_ahead (reads_serveLoop env pfds _ _ _ _).serves (arrivals_ahead arrivals)

theorem handleEvents_ahead (env : Env) (pfds : List PollFd) {pm : PeerManager} (room : Room pm) :
    Ahead (handleEvents env pfds pm).2 := by
  have served := servePass_ahead env pfds room
  unfold handleEvents
  generalize servePass env pfds pm = result at served ⊢
  obtain ⟨next, events, toDrop⟩ := result
  exact serves_ahead (serves_dropAll next events (toDrop ++ idlePeers next env.order (env.clock .sweep))) served

end Queues

section Rounds

def ownHandshake (pm : PeerManager) : Bytes := Message.bytes (.handshake pm.torrent pm.peerId)

theorem fixed_handshake {before after : PeerManager} (fixed : Fixed before after) :
    ownHandshake after = ownHandshake before := by
  rw [ownHandshake, fixed.torrent, fixed.peerId, ownHandshake]

/-- A connection set up in this round. -/
structure Newly (env : Env) (hello : Bytes) (c : PeerConnection) : Prop where
  stamp : ∃ fd, c.lastSent = env.clock (.promote fd)
  first : c.enqueued = [] ∨ c.enqueued = [hello]

theorem newcomer_newly (env : Env) (pm : PeerManager) (sock : Socket) (peer : Peer) (answers : Bool) :
    Newly env (ownHandshake pm) (newcomer pm sock peer (env.clock (.promote sock.fd)) answers) := by
  cases answers with
  | false => exact ⟨⟨sock.fd, rfl⟩, Or.inl rfl⟩
  | true => exact ⟨⟨sock.fd, rfl⟩, Or.inr rfl⟩

/-- The handshake passes in progress, while no identifier comes around. -/
structure Admitting (env : Env) (start : PeerManager) (w : World) : Prop where
  hello : ownHandshake w.pm = ownHandshake start
  more : start.promoted ≤ w.pm.promoted
  conns : ∀ id c, w.pm.conns.find? id = some c → start.conns.find? id = some c ∨
    start.promoted ≤ id ∧ id < w.pm.promoted ∧ Newly env (ownHandshake start) c

theorem Admitting.act {env : Env} {start : PeerManager} {w next : World} {a : Act}
    (admitting : Admitting env start w)
    (low : ∀ id c, start.conns.find? id = some c → id < start.promoted) (joins : a.Joins env start)
    (moves : act w a = some next) (few : next.pm.promoted < 2 ^ 32) : Admitting env start next := by
  have own := joins.1.1
  have grown := (act_fixed own moves).promoted
  have more := admitting.more
  have below : ∀ id c, w.pm.conns.find? id = some c → id < w.pm.promoted := by
    intro id c found
    rcases admitting.conns id c found with old | ⟨-, high, -⟩
    · exact Nat.lt_of_lt_of_le (low id c old) more
    · exact high
  refine ⟨(fixed_handshake (act_fixed own moves)).trans admitting.hello, Nat.le_trans more grown, ?_⟩
  intro id c found
  rcases act_connection own moves found with
    ⟨old, present, same | ⟨serving, -⟩ | ⟨here, -⟩⟩ | ⟨-, here, counted, -, sock, peer, now, answers, promotes, same⟩
  · rw [same]
    rcases admitting.conns id old present with before | ⟨late, high, newly⟩
    · exact Or.inl before
    · exact Or.inr ⟨late, Nat.lt_of_lt_of_le high grown, newly⟩
  · exact absurd serving joins.2.1
  · rw [Nat.mod_eq_of_lt (Nat.lt_of_le_of_lt grown few)] at here
    exact absurd (below id old present) (Nat.not_lt.mpr (Nat.le_of_eq here.symm))
  · rw [Nat.mod_eq_of_lt (Nat.lt_of_le_of_lt grown few)] at here
    refine Or.inr ⟨by omega, by omega, ?_⟩
    rw [same, joins.2.2 sock peer now answers promotes, ← admitting.hello]
    exact newcomer_newly env w.pm sock peer answers

theorem joins_admitting {env : Env} {start : PeerManager} {w : World}
    (moves : Reaches act (Act.Joins env start) ⟨start, []⟩ w)
    (low : ∀ id c, start.conns.find? id = some c → id < start.promoted) (few : w.pm.promoted < 2 ^ 32) :
    Admitting env start w := by
  have step : ∀ state after a, Act.Joins env start a →
      (state.pm.promoted < 2 ^ 32 → Admitting env start state) → act state a = some after →
      after.pm.promoted < 2 ^ 32 → Admitting env start after := by
    intro state after a joins before moved bound
    have earlier := Nat.lt_of_le_of_lt (act_fixed joins.1.1 moved).promoted bound
    exact (before earlier).act low joins moved bound
  exact Reaches.preserves step moves
    (fun _ => ⟨rfl, Nat.le_refl _, fun _ _ found => Or.inl found⟩) few

theorem drain_enqueued (c : PeerConnection) (result : Send) (now : Time) :
    (c.drain result now).1.enqueued = c.enqueued := by
  obtain ⟨_, _, _, _, _, same⟩ := c.drain_shape result now
  rw [same]

theorem effect_enqueued {c : PeerConnection} {id : Nat} {frequency : List Nat} {out : List PeerEvent}
    {msg : Bytes} {handled : Handled} (effect : PeerConnection.Effect c id frequency out msg handled) :
    handled.conn.enqueued = c.enqueued := by
  cases effect with
  | cancelled index offset length =>
    obtain ⟨_, _, same⟩ := c.removeQueuedPiece_shape index offset length
    rw [same]
  | _ => rfl

theorem reads_enqueued {w next : World} (moves : Reads w next) :
    ∀ id c, next.pm.conns.find? id = some c →
      ∃ old, w.pm.conns.find? id = some old ∧ c.enqueued = old.enqueued := by
  have step : ∀ state after a, Act.Reading a →
      (∀ id c, state.pm.conns.find? id = some c →
        ∃ old, w.pm.conns.find? id = some old ∧ c.enqueued = old.enqueued) →
      act state a = some after →
      ∀ id c, after.pm.conns.find? id = some c →
        ∃ old, w.pm.conns.find? id = some old ∧ c.enqueued = old.enqueued := by
    intro state after a reading before moved id c found
    have changed : ∃ middle, state.pm.conns.find? id = some middle ∧ c.enqueued = middle.enqueued := by
      cases a with
      | promote sock peer now answers => cases reading
      | send other message now => cases reading
      | outside other => cases reading
      | ban host => cases reading
      | collect => cases reading
      | drop other => cases reading
      | keepAlives now => cases reading
      | drain other result now =>
        cases moved
        obtain ⟨middle, present, same | ⟨-, same⟩⟩ := find_modify_some found
        · exact ⟨middle, present, by rw [same]⟩
        · exact ⟨middle, present, by rw [same]; exact drain_enqueued middle result now⟩
      | receive other chunk now =>
        cases moved
        obtain ⟨middle, present, same | ⟨-, same⟩⟩ := find_modify_some found
        · exact ⟨middle, present, by rw [same]⟩
        · exact ⟨middle, present, by rw [same]⟩
      | message other =>
        obtain ⟨old, msg, rest, handled, located, -, effect, same⟩ := act_message moved
        rw [same] at found
        obtain ⟨middle, present, unchanged | ⟨here, new⟩⟩ := find_modify_some found
        · exact ⟨middle, present, by rw [unchanged]⟩
        · rw [here, located] at present
          cases present
          have kept := effect_enqueued effect
          exact ⟨old, here ▸ located, by rw [new]; exact kept⟩
    obtain ⟨middle, present, same⟩ := changed
    obtain ⟨old, located, earlier⟩ := before id middle present
    exact ⟨old, located, same.trans earlier⟩
  exact Reaches.preserves step moves (fun _ c found => ⟨c, found, rfl⟩)

def PromptEnv (env : Env) : Prop :=
  ∀ fd, env.clock .sweep - env.clock (.promote fd) < kKeepAliveInterval

theorem handleEvents_promoted (env : Env) (pfds : List PollFd) (pm : PeerManager) :
    (handleEvents env pfds pm).1.promoted = (admitted env pfds pm).pm.promoted := by
  have served : (servePass env pfds pm).1.promoted = (admitted env pfds pm).pm.promoted := by
    rw [servePass_admitted]
    exact (reads_serveLoop env pfds _ _ _ _).serves.frame.promoted
  rw [← served]
  unfold handleEvents
  generalize servePass env pfds pm = result
  obtain ⟨next, events, toDrop⟩ := result
  dsimp only
  rw [(dialMore_apart env _).promoted, (acceptReady_apart env pfds _).promoted, (expire_apart _ _ _ _).promoted]
  exact (dropAll_frame next events _).promoted

theorem Newly.opening {env : Env} {hello : Bytes} {old c : PeerConnection} {prompt : Prop}
    (newly : Newly env hello old) (patient : prompt → PromptEnv env) (pinged : Pinged (env.clock .sweep) old c) :
    Opening prompt hello c.enqueued := by
  cases pinged with
  | quiet => exact ⟨[], by simp, fun _ => rfl, newly.first⟩
  | ping empty silent =>
    refine ⟨[Message.bytes .keepAlive], by simp, ?_, ?_⟩
    · intro yes
      obtain ⟨fd, stamp⟩ := newly.stamp
      rw [stamp] at silent
      exact absurd (patient yes fd) (Int.not_lt.mpr silent)
    · rcases newly.first with nothing | handshake
      · left
        show old.enqueued ++ _ = _
        rw [nothing, List.nil_append]
      · right
        show old.enqueued ++ _ = _
        rw [handshake, List.singleton_append]

/-- Every connection after a round: one of before, with at most a keep-alive added, or a new one. -/
theorem handleEvents_enqueued (env : Env) (pfds : List PollFd) {pm : PeerManager} {prompt : Prop}
    (patient : prompt → PromptEnv env) (room : pm.Room)
    (low : ∀ id c, pm.conns.find? id = some c → id < pm.promoted) (snapshot : ∀ id ∈ pm.ids, id < pm.promoted)
    (few : (handleEvents env pfds pm).1.promoted < 2 ^ 32) {id : Nat} {c : PeerConnection}
    (found : (handleEvents env pfds pm).1.conns.find? id = some c) :
    (∃ old, pm.conns.find? id = some old ∧
      (c.enqueued = old.enqueued ∨ c.enqueued = old.enqueued ++ [Message.bytes .keepAlive])) ∨
    pm.promoted ≤ id ∧ Opening prompt (ownHandshake pm) c.enqueued := by
  obtain ⟨-, served, present, pinged⟩ := handleEvents_kept env pfds pm found
  obtain ⟨joins, -, setting⟩ := admitted_joins env pfds pm room
  rw [handleEvents_promoted] at few
  have admitting := joins_admitting joins low few
  rw [servePass_admitted] at present
  obtain ⟨middle, located, same⟩ := reads_enqueued (reads_serveLoop env pfds _ _ _ _) id served present
  rcases admitting.conns id middle located with before | ⟨late, -, newly⟩
  · refine Or.inl ⟨middle, before, ?_⟩
    rw [← same]
    cases pinged with
    | quiet => exact Or.inl rfl
    | ping empty silent => exact Or.inr rfl
  · -- a new peer is not in the snapshot, so that nobody has served it
    have outside : id ∉ (admitted env pfds pm).pm.ids := by
      rw [setting.ids]
      intro member
      exact Nat.not_lt.mpr late (snapshot id member)
    rw [serveLoop_others env pfds _ _ outside, located] at present
    cases present
    exact Or.inr ⟨late, newly.opening patient pinged⟩

theorem pollRound_enqueued {s : Session} (order : List Nat) (revents : Nat → Nat) (env : Env) {prompt : Prop}
    (patient : prompt → PromptEnv env) (room : s.peers.Room)
    (low : ∀ id c, s.peers.conns.find? id = some c → id < s.peers.promoted)
    (few : (s.pollRound order revents env).1.peers.promoted < 2 ^ 32) {id : Nat} {c : PeerConnection}
    (found : (s.pollRound order revents env).1.peers.conns.find? id = some c) :
    (∃ old, s.peers.conns.find? id = some old ∧
      (c.enqueued = old.enqueued ∨ c.enqueued = old.enqueued ++ [Message.bytes .keepAlive])) ∨
    s.peers.promoted ≤ id ∧ Opening prompt (ownHandshake s.peers) c.enqueued := by
  have space := (buildFds_apart s.peers order).room room
  have snapshot : ∀ id ∈ (s.peers.buildFds order).2.ids, id < s.peers.promoted := by
    intro other member
    obtain ⟨d, located⟩ := (Table.arrange_member s.peers.conns order other).mp member
    exact low other d located
  exact @handleEvents_enqueued env _ (s.peers.buildFds order).2 prompt patient space low snapshot few id c found

end Rounds

end TorrentPeer.Session
