import TorrentPeer.Runtime.Calls
import TorrentPeer.Runtime.QueueActs
import TorrentPeer.Runtime.Routing

/-! Everything a connection sends: our handshake, and behind it the messages that were enqueued, whole
and in order, except for blocks the peer has cancelled. -/

namespace TorrentPeer.PeerConnection

open Wire Transition PeerManager

def QueueOp.message : QueueOp → Option Message
  | .enqueue message => some message
  | _ => none

def spoken (ops : List QueueOp) : List Message := ops.filterMap QueueOp.message

def Message.Wired : Message → Prop
  | .handshake _ _ => False
  | _ => True

/-- Our handshake was sent before anything was queued, or it was the first message to be queued. -/
def Opened (torrent : TorrentFile) (peerId : Bytes) (start : PeerConnection) (lead : List Message) : Prop :=
  start.writeBuffer = [] ∧ start.cursor = 0 ∧
    (start.sock.sent = buildHandshake torrent peerId ∧ lead = [] ∨
      start.sock.sent = [] ∧ lead = [.handshake torrent peerId])

/-- The outgoing side is what these operations make of a freshly opened one. -/
structure Streamed (torrent : TorrentFile) (peerId : Bytes) (c : PeerConnection) (ops : List QueueOp) : Prop where
  typed : ∀ op ∈ ops, op.Typed
  wired : ∀ message ∈ spoken ops, Message.Wired message
  origin : ∃ start lead, Opened torrent peerId start lead ∧
    SameQueue c (runOps start (lead.map .enqueue ++ ops)) ∧
    c.enqueued = (lead ++ spoken ops).map Message.bytes

section Steps

variable {torrent : TorrentFile} {peerId : Bytes} {c after : PeerConnection} {ops : List QueueOp}

theorem spoken_snoc (ops : List QueueOp) (op : QueueOp) : spoken (ops ++ [op]) = spoken ops ++ op.message.toList := by
  rw [spoken, List.filterMap_append]
  cases op <;> rfl

theorem Streamed.step (streamed : Streamed torrent peerId c ops) (op : QueueOp) (typed : op.Typed)
    (wired : ∀ message ∈ op.message, Message.Wired message) (same : SameQueue after (c.applyOp op))
    (enqueued : after.enqueued = c.enqueued ++ op.message.toList.map Message.bytes) :
    Streamed torrent peerId after (ops ++ [op]) where
  typed := by
    intro one member
    rcases List.mem_append.mp member with old | new
    · exact streamed.typed one old
    · rw [List.mem_singleton.mp new]
      exact typed
  wired := by
    intro one member
    rw [spoken_snoc] at member
    rcases List.mem_append.mp member with old | new
    · exact streamed.wired one old
    · exact wired one (Option.mem_toList.mp new)
  origin := by
    obtain ⟨start, lead, opened, queue, record⟩ := streamed.origin
    refine ⟨start, lead, opened, ?_, ?_⟩
    · rw [← List.append_assoc, runOps_append]
      exact same.trans (queue.applyOp op)
    · rw [enqueued, record, spoken_snoc, ← List.map_append, List.append_assoc]

theorem Streamed.same (streamed : Streamed torrent peerId c ops) (same : SameQueue after c)
    (enqueued : after.enqueued = c.enqueued) : Streamed torrent peerId after ops := by
  obtain ⟨start, lead, opened, queue, record⟩ := streamed.origin
  exact ⟨streamed.typed, streamed.wired, start, lead, opened, same.trans queue, enqueued.trans record⟩

theorem Streamed.enqueue (streamed : Streamed torrent peerId c ops) (message : Message)
    (typed : (QueueOp.enqueue message).Typed) (wired : Message.Wired message) :
    Streamed torrent peerId (c.enqueue message.bytes) (ops ++ [.enqueue message]) := by
  refine streamed.step (.enqueue message) typed ?_ (SameQueue.refl _) rfl
  intro one member
  rw [Option.some.inj member.symm]
  exact wired

def Speaking (torrent : TorrentFile) (peerId : Bytes) (c : PeerConnection) : Prop :=
  ∃ ops, Streamed torrent peerId c ops

theorem Speaking.same (speaking : Speaking torrent peerId c) (same : SameQueue after c)
    (enqueued : after.enqueued = c.enqueued) : Speaking torrent peerId after := by
  obtain ⟨ops, streamed⟩ := speaking
  exact ⟨ops, streamed.same same enqueued⟩

theorem Speaking.enqueue (speaking : Speaking torrent peerId c) {message : Message}
    (typed : (QueueOp.enqueue message).Typed) (wired : Message.Wired message) :
    Speaking torrent peerId (c.enqueue message.bytes) := by
  obtain ⟨ops, streamed⟩ := speaking
  exact ⟨_, streamed.enqueue message typed wired⟩

theorem Speaking.touches (speaking : Speaking torrent peerId c) (touch : Touches c after) :
    Speaking torrent peerId after := by
  obtain ⟨ops, streamed⟩ := speaking
  cases touch with
  | drain result now =>
    obtain ⟨_, _, _, _, _, shape⟩ := c.drain_shape result now
    refine ⟨_, streamed.step (.drain result now) trivial (by simp [QueueOp.message]) (SameQueue.refl _) ?_⟩
    rw [shape]
    exact (List.append_nil _).symm
  | receive chunk now => exact ⟨ops, streamed.same ⟨rfl, rfl, rfl, rfl, rfl⟩ rfl⟩
  | ping empty => exact ⟨_, streamed.enqueue .keepAlive trivial trivial⟩
  | message rest id frequency out msg handled extracted effect =>
    have read : Streamed torrent peerId { c with readBuffer := rest, handled := c.handled ++ [msg] } ops :=
      streamed.same ⟨rfl, rfl, rfl, rfl, rfl⟩ rfl
    cases effect with
    | cancelled index offset length =>
      obtain ⟨_, _, shape⟩ := removeQueuedPiece_shape
        { c with readBuffer := rest, handled := c.handled ++ [msg] } index offset length
      refine ⟨_, read.step (.cancel index offset length) trivial (by simp [QueueOp.message]) (SameQueue.refl _) ?_⟩
      rw [shape]
      exact (List.append_nil _).symm
    | _ => exact ⟨ops, read.same ⟨rfl, rfl, rfl, rfl, rfl⟩ rfl⟩

end Steps

section Stream

def Message.lasting : Message → Bool
  | .piece _ _ _ => false
  | _ => true

def keptOf (gone : List Nat) (entries : List (QueueOp × Nat)) : List Message :=
  entries.filterMap (fun entry => if entry.2 ∈ gone then none else entry.1.message)

theorem survivors_kept (ops : List QueueOp) (deleted : List (Nat × Nat)) :
    (survivors ops deleted).map Prod.snd = (keptOf (deleted.map Prod.fst) ops.zipIdx).map Message.bytes := by
  rw [survivors, queued, keptOf, List.filter_filterMap, List.map_filterMap, List.map_filterMap]
  generalize deleted.map Prod.fst = gone
  apply List.filterMap_congr
  intro entry _
  obtain ⟨op, step⟩ := entry
  by_cases listed : step ∈ gone
  · cases op <;> simp [listed]
  · cases op <;> simp [listed, QueueOp.message]

variable (gone : List Nat)

theorem keptOf_cons (op : QueueOp) (step : Nat) (entries : List (QueueOp × Nat)) :
    keptOf gone ((op, step) :: entries) =
      (if step ∈ gone then none else op.message).toList ++ keptOf gone entries := by
  rw [keptOf, List.filterMap_cons]
  dsimp only
  generalize (if step ∈ gone then none else op.message) = first
  cases first <;> rfl

theorem spoken_cons (op : QueueOp) (ops : List QueueOp) : spoken (op :: ops) = op.message.toList ++ spoken ops := by
  rw [spoken, List.filterMap_cons]
  cases op <;> rfl

theorem kept_sublist (ops : List QueueOp) (first : Nat) :
    (keptOf gone (ops.zipIdx first)).Sublist (spoken ops) := by
  induction ops generalizing first with
  | nil => exact List.Sublist.refl _
  | cons op ops ih =>
    rw [List.zipIdx_cons, keptOf_cons, spoken_cons]
    refine List.Sublist.append ?_ (ih (first + 1))
    split
    · exact List.nil_sublist _
    · exact List.Sublist.refl _

theorem kept_lasting (ops : List QueueOp) (first : Nat)
    (blocks : ∀ entry ∈ ops.zipIdx first, entry.2 ∈ gone → ∀ message ∈ entry.1.message,
      Message.lasting message = false) :
    (keptOf gone (ops.zipIdx first)).filter Message.lasting = (spoken ops).filter Message.lasting := by
  induction ops generalizing first with
  | nil => rfl
  | cons op ops ih =>
    rw [List.zipIdx_cons] at blocks ⊢
    rw [keptOf_cons, spoken_cons, List.filter_append, List.filter_append,
      ih (first + 1) (fun entry member => blocks entry (List.mem_cons_of_mem _ member))]
    congr 1
    split
    · rename_i listed
      have block := blocks (op, first) (List.mem_cons_self ..) listed
      symm
      apply List.filter_eq_nil_iff.mpr
      intro message member
      rw [block message (Option.mem_toList.mp member)]
      exact Bool.false_ne_true
    · rfl

variable {torrent : TorrentFile} {peerId : Bytes} {c : PeerConnection} {ops : List QueueOp}

/-- What the kernel has and what is still queued: our handshake, and behind it the messages of the
operations, of which some blocks may be missing. -/
theorem Streamed.stream (streamed : Streamed torrent peerId c ops) :
    ∃ words : List Message, words.Sublist (spoken ops) ∧
      words.filter Message.lasting = (spoken ops).filter Message.lasting ∧
      c.sock.sent ++ unsent c = buildHandshake torrent peerId ++ (words.map Message.bytes).flatten := by
  obtain ⟨start, lead, ⟨empty, still, opened⟩, queue, -⟩ := streamed.origin
  have typed : ∀ op ∈ lead.map QueueOp.enqueue ++ ops, op.Typed := by
    intro op member
    rcases List.mem_append.mp member with first | later
    · obtain ⟨message, inside, same⟩ := List.mem_map.mp first
      rcases opened with ⟨-, none_⟩ | ⟨-, hello⟩
      · rw [none_] at inside
        cases inside
      · rw [hello] at inside
        rw [← same, List.mem_singleton.mp inside]
        trivial
    · exact streamed.typed op later
  obtain ⟨deleted, done, waiting, account⟩ := run_account start empty still _ typed
  have balance : c.sock.sent ++ unsent c = start.sock.sent ++
      ((keptOf (deleted.map Prod.fst) (lead.map QueueOp.enqueue ++ ops).zipIdx).map Message.bytes).flatten := by
    rw [← survivors_kept, ← account.balance, queue.sent, unsent, unsent, queue.buffer, queue.cursor]
  -- a deleted number is that of a block
  have blocks : ∀ entry ∈ (lead.map QueueOp.enqueue ++ ops).zipIdx, entry.2 ∈ deleted.map Prod.fst →
      ∀ message ∈ entry.1.message, Message.lasting message = false := by
    intro entry member listed message said
    obtain ⟨pair, inside, same⟩ := List.mem_map.mp listed
    obtain ⟨index, offset, data, here, -⟩ := account.matched pair inside
    have located := List.mem_zipIdx_iff_getElem?.mp member
    rw [same, located] at here
    rw [Option.some.inj here] at said
    rw [← Option.some.inj said]
    rfl
  rcases opened with ⟨sent, none_⟩ | ⟨sent, hello⟩
  · subst none_
    refine ⟨_, kept_sublist _ ops 0, kept_lasting _ ops 0 blocks, ?_⟩
    rw [balance, sent]
    rfl
  · subst hello
    rw [List.map_cons, List.map_nil, List.singleton_append, List.zipIdx_cons] at blocks balance
    have stays : 0 ∉ deleted.map Prod.fst := by
      intro listed
      exact absurd (blocks _ (List.mem_cons_self ..) listed _ rfl) (by simp [Message.lasting])
    refine ⟨_, kept_sublist _ ops 1, kept_lasting _ ops 1 (fun entry member => blocks entry
      (List.mem_cons_of_mem _ member)), ?_⟩
    rw [balance, sent, keptOf_cons, if_neg stays]
    rfl

end Stream

end TorrentPeer.PeerConnection

namespace TorrentPeer.PeerManager

open PeerConnection Wire Transition

/-- As long as connection numbers have not run out, every connection speaks for this torrent and peer id. -/
structure Voiced (torrent : TorrentFile) (peerId : Bytes) (pm : PeerManager) : Prop where
  our : pm.torrent = torrent
  name : pm.peerId = peerId
  numbered : pm.promoted ≤ 2 ^ 32 → Numbered pm
  speaking : pm.promoted < 2 ^ 32 → ∀ id c, pm.conns.find? id = some c → Speaking torrent peerId c

section Rounds

variable {torrent : TorrentFile} {peerId : Bytes} {pm : PeerManager}

theorem newcomer_speaking (pm : PeerManager) (sock : Socket) (peer : Peer) (now : Time) (answers : Bool)
    (sent : sock.sent = if answers = true then [] else buildHandshake pm.torrent pm.peerId) :
    Speaking pm.torrent pm.peerId (newcomer pm sock peer now answers) := by
  refine ⟨[], by simp, by simp [spoken], newcomer pm sock peer now false, ?_⟩
  cases answers with
  | false => exact ⟨[], ⟨rfl, rfl, Or.inl ⟨sent, rfl⟩⟩, SameQueue.refl _, rfl⟩
  | true => exact ⟨[.handshake pm.torrent pm.peerId], ⟨rfl, rfl, Or.inr ⟨sent, rfl⟩⟩, SameQueue.refl _, rfl⟩

theorem admitOne_voiced (env : Env) (answers : Bool) (w : World) (sock : Socket) (peer : Peer)
    (sent : sock.sent = if answers = true then [] else buildHandshake torrent peerId)
    (voiced : Voiced torrent peerId w.pm) : Voiced torrent peerId (admitOne env answers w (sock, peer)).pm := by
  have frame := (admitOne_frame env answers w (sock, peer)).1
  have count : (admitOne env answers w (sock, peer)).pm.promoted = w.pm.promoted + 1 :=
    congrArg PeerManager.promoted frame
  have joined : w.pm.promoted + 1 ≤ 2 ^ 32 → ∀ id, (admitOne env answers w (sock, peer)).pm.conns.find? id =
      if id = w.pm.promoted then some (newcomer w.pm sock peer (env.clock (.promote sock.fd)) answers)
      else w.pm.conns.find? id := by
    intro few id
    have here : w.pm.promoted % 2 ^ 32 = w.pm.promoted := Nat.mod_eq_of_lt few
    have free : w.pm.conns.find? w.pm.promoted = none := by
      refine Option.eq_none_iff_forall_ne_some.mpr (fun c found => ?_)
      exact Nat.lt_irrefl _ (voiced.numbered (Nat.le_of_succ_le few) _ c found)
    have absent := here ▸ free
    rw [admitOne_conns env answers w sock peer absent, Table.find_emplace _ _ _ _ absent, here]
  refine ⟨(congrArg PeerManager.torrent frame).trans voiced.our,
    (congrArg PeerManager.peerId frame).trans voiced.name, ?_, ?_⟩
  · intro few id c found
    rw [count] at few ⊢
    rw [joined few] at found
    split at found
    · omega
    · exact Nat.lt_succ_of_lt (voiced.numbered (Nat.le_of_succ_le few) id c found)
  · intro few id c found
    rw [count] at few
    rw [joined (Nat.le_of_lt few)] at found
    split at found
    · cases found
      rw [← voiced.our, ← voiced.name] at sent ⊢
      exact newcomer_speaking w.pm sock peer _ answers sent
    · exact voiced.speaking (Nat.lt_of_succ_lt few) id c found

theorem serves_voiced {w next : World} (serves : Serves w next) (voiced : Voiced torrent peerId w.pm) :
    Voiced torrent peerId next.pm := by
  have step : ∀ (state after : World) a, Act.Serving a → Voiced torrent peerId state.pm →
      act state a = some after → Voiced torrent peerId after.pm := by
    intro state after a serving before moves
    have own : a.Own := (serving.vets state.pm).1
    have setting := act_setting state after a serving moves
    have count := (act_frame state after a serving moves).promoted
    refine ⟨setting.torrent.trans before.our, setting.peerId.trans before.name,
      acts_numbered (Reaches.one a own moves) before.numbered, ?_⟩
    intro few id c found
    rw [count] at few
    rcases act_connection own moves found with
      ⟨old, present, same | ⟨-, touch⟩ | ⟨here, -⟩⟩ | ⟨-, -, more, -⟩
    · rw [same]
      exact before.speaking few id old present
    · exact (before.speaking few id old present).touches touch
    · -- the number the next promotion gets is in use by nobody
      have low := before.numbered (Nat.le_of_lt few) id old present
      rw [Nat.mod_eq_of_lt few] at here
      omega
    · omega
  exact Reaches.preserves step serves voiced

theorem handleEvents_voiced (env : Env) (pfds : List PollFd) (room : Room pm) (hailing : Hailing torrent peerId pm)
    (voiced : Voiced torrent peerId pm) : Voiced torrent peerId (handleEvents env pfds pm).1 := by
  have setting := handleEvents_setting env pfds pm
  have admitted : Voiced torrent peerId (admitted env pfds pm).pm := by
    apply admitted_invariant env pfds voiced
    · intro other inbound outbound known before
      exact ⟨before.our, before.name, before.numbered, before.speaking⟩
    · intro i p sock peer located turned w before
      obtain ⟨hs, same⟩ := inboundTurn_joins turned
      apply admitOne_voiced env true w sock peer ?_ before
      rw [same]
      exact hailing.pends.inbound p (List.mem_of_getElem? located)
    · intro i p sock peer located turned w before
      obtain ⟨phase, hs, same⟩ := outboundTurn_joins turned
      apply admitOne_voiced env false w sock peer ?_ before
      have sent := hailing.pends.outbound p (List.mem_of_getElem? located)
      rw [phase] at sent
      rw [same]
      exact sent
  refine ⟨setting.torrent.trans voiced.our, setting.peerId.trans voiced.name,
    perform_numbered (.handleEvents env pfds) room voiced.numbered, ?_⟩
  intro few id c found
  obtain ⟨more, inbound⟩ := accepted_inbound env pfds (expired env (PeerManager.swept env pfds pm).pm)
  have swept := serves_voiced (swept_serves env pfds pm) admitted
  rw [handleEvents_stages] at found few
  dsimp only at found few
  rw [(dialMore_dialed env _).1.frame, inbound] at found few
  exact swept.speaking few id c found

theorem Op.Plain.typed {id : Nat} {message : Message} {now : Time} (plain : Op.Plain (.send id message now)) :
    (QueueOp.enqueue message).Typed ∧ Message.Wired message := by
  cases message with
  | handshake torrent peerId => exact plain.elim
  | _ => exact ⟨plain, trivial⟩

theorem perform_voiced (op : Op) (plain : op.Plain) (room : Room pm) (voiced : Voiced torrent peerId pm) :
    Voiced torrent peerId (pm.perform op).1 := by
  have numbered := perform_numbered op room voiced.numbered
  have modified : ∀ id change, (∀ c, Speaking torrent peerId c → Speaking torrent peerId (change c)) →
      Voiced torrent peerId { pm with conns := pm.conns.modify id change } := by
    intro id change keeps
    refine ⟨voiced.our, voiced.name, fun few => modify_numbered (voiced.numbered few) id change, ?_⟩
    intro few other c found
    obtain ⟨old, present, same | ⟨-, same⟩⟩ := find_modify_some found
    · rw [same]
      exact voiced.speaking few other old present
    · rw [same]
      exact keeps old (voiced.speaking few other old present)
  cases op with
  | buildFds order => exact ⟨voiced.our, voiced.name, voiced.numbered, voiced.speaking⟩
  | handleEvents env pfds => exact plain.elim
  | addPeers env peers =>
    have setting := addPeers_setting env pm peers
    have apart := addPeers_apart env pm peers
    refine ⟨setting.torrent.trans voiced.our, setting.peerId.trans voiced.name, numbered, ?_⟩
    intro few id c found
    rw [perform, apart.promoted] at few
    rw [perform, apart.conns] at found
    exact voiced.speaking few id c found
  | send id message now =>
    obtain ⟨typed, wired⟩ := plain.typed
    apply modified
    intro c before
    have noted : Speaking torrent peerId (noted c now message) := by
      cases message <;> exact before.same ⟨rfl, rfl, rfl, rfl, rfl⟩ rfl
    exact noted.enqueue typed wired
  | broadcastHave index =>
    refine ⟨voiced.our, voiced.name, numbered, ?_⟩
    intro few id c found
    rw [perform, broadcastHave, Table.find_update] at found
    obtain ⟨old, present, same⟩ := Option.map_eq_some_iff.mp found
    rw [← same]
    exact (voiced.speaking few id old present).enqueue trivial trivial
  | ban host order =>
    by_cases already : host ∈ pm.banned
    · rw [perform, ban, if_pos already]
      exact voiced
    · rw [perform, ban_fresh host order already]
      have listed : Voiced torrent peerId { pm with banned := insert host pm.banned } :=
        ⟨voiced.our, voiced.name, voiced.numbered, voiced.speaking⟩
      exact serves_voiced (serves_dropAll { pm with banned := insert host pm.banned } [] (pm.peersOf host order))
        listed
  | expire id pending snubbed => exact modified id _ (fun c before => before.same ⟨rfl, rfl, rfl, rfl, rfl⟩ rfl)

/-- A manager in use that has cut no handshake short so far. -/
structure Vocal (pm : PeerManager) : Prop where
  used : Used pm
  hailing : Hailing pm.torrent pm.peerId pm
  voiced : Voiced pm.torrent pm.peerId pm

theorem create_vocal {torrent : TorrentFile} {peerId : Bytes} {listenSock : Option Nat} {maxPeers : Nat}
    (created : create torrent peerId listenSock maxPeers = .ok pm) : Vocal pm := by
  obtain ⟨conns, inbound, outbound, -⟩ := create_empty created
  have nobody : ∀ id c, pm.conns.find? id ≠ some c := by
    intro id c found
    rw [conns] at found
    cases found
  refine ⟨.start pm ⟨torrent, peerId, listenSock, maxPeers, created⟩, ⟨⟨rfl, rfl, ?_⟩, ?_, ?_⟩, rfl, rfl, ?_, ?_⟩
  · exact fun id c found => absurd found (nobody id c)
  · simp [inbound]
  · simp [outbound]
  · exact fun _ id c found => absurd found (nobody id c)
  · exact fun _ id c found => absurd found (nobody id c)

theorem Op.Plain.whole {op : Op} (plain : op.Plain) : SendsWhole pm op := by
  cases op with
  | handleEvents env pfds => exact plain.elim
  | _ => trivial

theorem Vocal.perform (vocal : Vocal pm) (op : Op) (whole : SendsWhole pm op)
    (voiced : Voiced pm.torrent pm.peerId (pm.perform op).1) : Vocal (pm.perform op).1 := by
  have hailing := perform_hailing op vocal.hailing whole
  refine ⟨.next pm _ op vocal.used rfl, ?_, ?_⟩
  · rw [voiced.our, voiced.name]
    exact hailing
  · rw [voiced.our, voiced.name]
    exact voiced

end Rounds

end TorrentPeer.PeerManager

namespace TorrentPeer.Session

open PeerManager PeerConnection Transition

variable {sha1 : Bytes → Bytes} {kernel : Kernel} {t : TorrentFile} {sys : Sys}

theorem hailing_vocal (within : ReachableWithin (step sha1 kernel) (Begins sha1 kernel t) HailsWhole sys) :
    Vocal sys.session.peers := by
  apply hailing_invariant ?_ ?_ ?_ within
  · intro start torrent peerId listenSock maxPeers created
    exact create_vocal created
  · intro pm op vocal plain
    exact vocal.perform op plain.whole (perform_voiced op plain (used_room vocal.used) vocal.voiced)
  · intro pm env pfds vocal whole
    exact vocal.perform (.handleEvents env pfds) whole
      (handleEvents_voiced env pfds (used_room vocal.used) vocal.hailing vocal.voiced)

end TorrentPeer.Session
