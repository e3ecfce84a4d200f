import TorrentPeer.Runtime.Notices

/-! Whole runs: every peer is greeted once, and told of every piece exactly once. -/

namespace TorrentPeer.Session

open PeerManager Wire Transition Torrent

/-- What every peer has been told, in the middle of a round. -/
structure Told (prompt : Prop) (hello : Bytes) (f : Flow) : Prop where
  ahead : Ahead f.queue
  handshake : ownHandshake f.session.peers = hello
  waiting : ∀ id c, f.session.peers.conns.find? id = some c → id ∈ joinedIds f.queue →
    Opening prompt hello c.enqueued
  informed : ∀ id c, f.session.peers.conns.find? id = some c → id ∉ joinedIds f.queue →
    Informed prompt hello f.session.pieces.have_ c.enqueued

/-- Moves that gain no piece, greet nobody, and send a peer at most one message of no matter. -/
structure Mild (f next : Flow) : Prop where
  part : next.queue.Sublist f.queue
  joined : joinedIds next.queue = joinedIds f.queue
  hello : ownHandshake next.session.peers = ownHandshake f.session.peers
  have_ : next.session.pieces.have_ = f.session.pieces.have_
  conns : ∀ id c, next.session.peers.conns.find? id = some c →
    ∃ old, f.session.peers.conns.find? id = some old ∧
      (c.enqueued = old.enqueued ∨ id ∉ joinedIds f.queue ∧
        ∃ message : Message, message.Silent ∧ c.enqueued = old.enqueued ++ [message.bytes])

section Moves

variable {sha1 : Bytes → Bytes} {kernel : Kernel} {t : TorrentFile} {prompt : Prop} {hello : Bytes} {f next : Flow}

theorem Told.mild (told : Told prompt hello f) (mild : Mild f next) : Told prompt hello next := by
  constructor
  · exact told.ahead.sublist mild.part
  · exact mild.hello.trans told.handshake
  · intro id c found waiting
    rw [mild.joined] at waiting
    obtain ⟨old, present, same | ⟨greeted, -⟩⟩ := mild.conns id c found
    · rw [same]
      exact told.waiting id old present waiting
    · exact absurd waiting greeted
  · intro id c found greeted
    rw [mild.joined] at greeted
    rw [mild.have_]
    obtain ⟨old, present, same | ⟨-, message, silent, longer⟩⟩ := mild.conns id c found
    · rw [same]
      exact told.informed id old present greeted
    · rw [longer]
      exact (told.informed id old present greeted).silent silent

theorem Mild.still (queue : next.queue = f.queue)
    (hello : ownHandshake next.session.peers = ownHandshake f.session.peers)
    (have_ : next.session.pieces.have_ = f.session.pieces.have_)
    (conns : ∀ id c, next.session.peers.conns.find? id = some c →
      ∃ old, f.session.peers.conns.find? id = some old ∧ c.enqueued = old.enqueued) : Mild f next := by
  refine ⟨by rw [queue], by rw [queue], hello, have_, ?_⟩
  intro id c found
  obtain ⟨old, present, same⟩ := conns id c found
  exact ⟨old, present, Or.inl same⟩

theorem Mild.pop {event : PeerEvent} {rest : List PeerEvent} (front : f.queue = event :: rest)
    (other : ∀ id, event ≠ .joined id) (queue : next.queue = rest)
    (hello : ownHandshake next.session.peers = ownHandshake f.session.peers)
    (have_ : next.session.pieces.have_ = f.session.pieces.have_)
    (conns : ∀ id c, next.session.peers.conns.find? id = some c →
      ∃ old, f.session.peers.conns.find? id = some old ∧
        (c.enqueued = old.enqueued ∨ id ∉ joinedIds f.queue ∧
          ∃ message : Message, message.Silent ∧ c.enqueued = old.enqueued ++ [message.bytes])) :
    Mild f next := by
  refine ⟨?_, ?_, hello, have_, conns⟩
  · rw [queue, front]
    exact List.sublist_cons_self event rest
  · rw [queue]
    exact popped_joined front other

theorem Told.join (told : Told prompt hello f) (named : Named f) {id : Nat} {rest : List PeerEvent}
    (front : f.queue = .joined id :: rest) :
    Told prompt hello { f with session := f.session.onJoined id, queue := rest } := by
  have waiting : joinedIds f.queue = id :: joinedIds rest := by
    rw [front]
    rfl
  have gone : id ∉ joinedIds rest := by
    have once := named.once
    rw [waiting] at once
    exact (List.nodup_cons.mp once).1
  have have_ : (f.session.onJoined id).pieces.have_ = f.session.pieces.have_ := rfl
  have conns : ∀ other c, (f.session.onJoined id).peers.conns.find? other = some c →
      ∃ old, f.session.peers.conns.find? other = some old ∧
        (other ≠ id ∧ c = old ∨ other = id ∧ c = greeted f.session.pieces.have_ f.session.pieces.isComplete old) := by
    intro other c found
    rw [onJoined_peers, Table.find_modify] at found
    split at found
    · rename_i here
      obtain ⟨old, present, same⟩ := Option.map_eq_some_iff.mp found
      exact ⟨old, here ▸ present, Or.inr ⟨here, same.symm⟩⟩
    · rename_i elsewhere
      exact ⟨c, found, Or.inl ⟨elsewhere, rfl⟩⟩
  constructor
  · apply told.ahead.sublist
    rw [front]
    exact List.sublist_cons_self _ rest
  · dsimp only
    rw [onJoined_peers]
    exact told.handshake
  · intro other c found still
    obtain ⟨old, present, ⟨-, same⟩ | ⟨here, -⟩⟩ := conns other c found
    · rw [same]
      apply told.waiting other old present
      rw [waiting]
      exact List.mem_cons_of_mem id still
    · rw [here] at still
      exact absurd still gone
  · intro other c found greeted
    dsimp only
    rw [have_]
    obtain ⟨old, present, ⟨elsewhere, same⟩ | ⟨here, same⟩⟩ := conns other c found
    · rw [same]
      apply told.informed other old present
      rw [waiting]
      intro member
      exact (List.mem_cons.mp member).elim elsewhere greeted
    · rw [same]
      apply Opening.greet
      apply told.waiting other old present
      rw [waiting, here]
      exact List.mem_cons_self ..

theorem Told.gain (told : Told prompt hello f) {s : Session} {index : Nat}
    {event : PeerEvent} {rest : List PeerEvent} (front : f.queue = event :: rest)
    (other : ∀ id, event ≠ .joined id) (small : index < 2 ^ 32)
    (wanted : f.session.pieces.have_.get index = false)
    (gained : ∀ j, s.pieces.have_.get j = (decide (j = index) || f.session.pieces.have_.get j))
    (width : s.pieces.have_.bits = f.session.pieces.have_.bits)
    (peers : s.peers = f.session.peers.broadcastHave index) (convicted : List Bytes) (filed : List Filed) :
    Told prompt hello { f with session := s, queue := rest, convicted := convicted, filed := filed } := by
  have nobody : joinedIds f.queue = [] := by
    have ahead := told.ahead
    rw [front] at ahead ⊢
    exact ahead.none_left other
  have still : joinedIds rest = [] := (popped_joined front other).trans nobody
  constructor
  · apply told.ahead.sublist
    rw [front]
    exact List.sublist_cons_self event rest
  · dsimp only
    rw [peers]
    exact told.handshake
  · intro id c found waiting
    dsimp only at waiting
    rw [still] at waiting
    cases waiting
  · intro id c found greeted
    dsimp only at found ⊢
    rw [peers, broadcastHave, Table.find_update] at found
    obtain ⟨old, present, same⟩ := Option.map_eq_some_iff.mp found
    have before := told.informed id old present (by rw [nobody]; exact List.not_mem_nil)
    rw [← same]
    exact before.gain small wanted gained width

theorem Told.file (geometry : Geometry t) (custody : Custody sha1 t f) (told : Told prompt hello f) {id : Nat}
    {block : Block} {rest : List PeerEvent} {result : BlockResult} {judged : Session} {hosts : List Bytes}
    (front : f.queue = .piece id block :: rest)
    (outcome : Judged sha1 kernel f.session id block result hosts judged) (filed : List Filed) :
    Told prompt hello { f with session := judged, queue := rest, convicted := hosts, filed := filed } := by
  have same : ∀ other c, f.session.peers.conns.find? other = some c →
      ∃ old, f.session.peers.conns.find? other = some old ∧
        (c.enqueued = old.enqueued ∨ other ∉ joinedIds f.queue ∧
          ∃ message : Message, message.Silent ∧ c.enqueued = old.enqueued ++ [message.bytes]) :=
    fun _ c found => ⟨c, found, Or.inl rfl⟩
  cases outcome with
  | rejected count piece => exact told.mild (Mild.pop front (by simp) rfl rfl rfl same)
  | incomplete count pp b pieces fits verdict =>
    cases verdict
    exact told.mild (Mild.pop front (by simp) rfl rfl rfl same)
  | failed count pp b pieces piece fits verdict =>
    cases verdict
    exact told.mild (Mild.pop front (by simp) rfl rfl rfl same)
  | verified count pp b pieces piece written fits verdict stored =>
    have valid := custody.sound.valid
    have small : block.pieceIndex < 2 ^ 32 := by
      have counted := fits.counted
      rw [valid.pieceCount] at counted
      exact Nat.lt_trans counted (Nat.mod_lt _ (by decide))
    have next_valid := verdict.keeps_valid geometry valid fits
    have width : pieces.have_.bits = f.session.pieces.have_.bits := by
      rw [next_valid.bits, next_valid.pieceCount, valid.bits, valid.pieceCount]
    cases verdict with
    | verified _ full right marked =>
      obtain ⟨-, -, -, gained⟩ := PieceManager.markHave_valid
        (PieceManager.erase_valid valid block.pieceIndex) block.pieceIndex fits.counted fits.wanted
        (by simp) marked
      exact told.gain front (by simp) small fits.wanted gained width rfl _ _

end Moves

section Runs

variable {sha1 : Bytes → Bytes} {kernel : Kernel} {t : TorrentFile} {prompt : Prop} {hello : Bytes} {f next : Flow}

theorem Told.round (told : Told prompt hello f) (named : Named f) (room : f.session.peers.Room)
    (idle : f.queue = []) (order : List Nat) (revents : Nat → Nat) (env : Env)
    (few : (f.session.pollRound order revents env).1.peers.promoted < 2 ^ 32)
    (arrive : ∀ id c, (f.session.pollRound order revents env).1.peers.conns.find? id = some c →
      f.session.peers.promoted ≤ id → Opening prompt hello c.enqueued) (deliveries : List Delivery) :
    Told prompt hello { f with
      session := (f.session.pollRound order revents env).1
      queue := (f.session.pollRound order revents env).2
      deliveries := deliveries } := by
  have low : ∀ id c, f.session.peers.conns.find? id = some c → id < f.session.peers.promoted :=
    fun id c found => (named.ids id c found).1
  have acts := (pollRound_acts order revents env room).1
  have since := acts_since acts few
  have changes : ∀ id c, (f.session.pollRound order revents env).1.peers.conns.find? id = some c →
      (∃ old, f.session.peers.conns.find? id = some old ∧
        (c.enqueued = old.enqueued ∨ c.enqueued = old.enqueued ++ [Message.bytes .keepAlive])) ∨
      f.session.peers.promoted ≤ id := by
    intro id c found
    have relaxed := @pollRound_enqueued f.session order revents env False False.elim room low few id c found
    exact relaxed.imp_right And.left
  constructor
  · exact handleEvents_ahead env _ ((buildFds_apart f.session.peers order).room room)
  · exact (fixed_handshake (acts_fixed acts)).trans told.handshake
  · intro id c found waiting
    exact arrive id c found (since.joined id waiting).1
  · intro id c found greeted
    rcases changes id c found with ⟨old, present, same⟩ | late
    · have before := told.informed id old present (by rw [idle]; exact List.not_mem_nil)
      rcases same with same | longer
      · rw [same]
        exact before
      · rw [longer]
        exact @Informed.silent _ _ _ _ before .keepAlive trivial
    · rcases since.conns id c found with ⟨old, present, -⟩ | ⟨-, -, -, -, queued⟩
      · exact absurd (low id old present) (Nat.not_lt.mpr late)
      · exact absurd ((mem_joinedIds _ _).mpr queued) greeted

theorem Told.quiet (geometry : Geometry t) (record : Record sha1 t f) (told : Told prompt hello f)
    (move : Quiet sha1 kernel f next) (few : f.session.peers.promoted < 2 ^ 32)
    (calm : next.session.peers.promoted = f.session.peers.promoted) : Told prompt hello next := by
  have named := record.named few
  have custody := record.books.custody
  have unchanged : ∀ id c, f.session.peers.conns.find? id = some c →
      ∃ old, f.session.peers.conns.find? id = some old ∧ c.enqueued = old.enqueued :=
    fun _ c found => ⟨c, found, rfl⟩
  cases move with
  | build order => exact told.mild (.still rfl rfl rfl unchanged)
  | round order revents env idle =>
    have after := named.round idle order revents env custody.room (by rw [← calm] at few; exact few)
    apply told.round named custody.room idle order revents env (by rw [← calm] at few; exact few)
    intro id c found late
    have high := (after.ids id c found).1
    rw [calm] at high
    exact absurd high (Nat.not_lt.mpr late)
  | dial env fresh =>
    have apart := addPeers_apart env f.session.peers fresh
    apply told.mild
    refine .still rfl ?_ rfl ?_
    · dsimp only
      rw [apart.same]
      rfl
    · dsimp only
      rw [apart.conns]
      exact unchanged
  | complete => exact told.mild (.still rfl rfl rfl unchanged)
  | convict host hosts listed => exact told.mild (.still rfl rfl rfl unchanged)
  | release event rest reqs front gives =>
    have other : ∀ id, event ≠ .joined id := by
      rintro id rfl
      cases gives
    apply told.mild
    exact Mild.pop front other rfl rfl (release_have _ reqs) (fun _ c found => ⟨c, found, Or.inl rfl⟩)
  | join id rest front => exact told.join named front
  | serve id req rest session front served =>
    have typed := custody.typed (.request id req) (by rw [front]; exact List.mem_cons_self ..)
    cases serve_cases geometry custody.sound id req session typed served with
    | ignored read kept =>
      exact told.mild (Mild.pop front (by simp) rfl rfl rfl (fun _ c found => ⟨c, found, Or.inl rfl⟩))
    | sent read kept held space inside count =>
      apply told.mild
      refine Mild.pop front (by simp) rfl rfl rfl ?_
      intro other c found
      obtain ⟨old, present, same | ⟨-, longer⟩⟩ := find_modify_some found
      · exact ⟨old, present, Or.inl (by rw [same])⟩
      · have ahead := told.ahead
        rw [front] at ahead
        refine ⟨old, present, Or.inr ⟨?_, .piece req.pieceIndex req.offset _, trivial, by rw [longer]; rfl⟩⟩
        rw [front, ahead.none_left (by simp)]
        exact List.not_mem_nil
  | file id block rest result taken judged hosts front idle took verdict =>
    have outcome := judge_cases sha1 kernel f.session taken judged id block result hosts took verdict
    exact told.file geometry custody front outcome _
  | expel id c found =>
    apply told.mild
    refine .still rfl ?_ (release_have _ _) ?_
    · dsimp only [expel]
      simp only [PeerManager.drop, found]
      rfl
    · intro other after present
      rw [expel_conns id c found, Table.find_erase] at present
      split at present
      · cases present
      · exact unchanged other after present
  | expire id c cutoff found =>
    apply told.mild
    refine .still rfl rfl (release_have _ _) ?_
    intro other after present
    obtain ⟨old, located, same | ⟨-, same⟩⟩ := find_modify_some present
    · exact ⟨old, located, by rw [same]⟩
    · exact ⟨old, located, by rw [same]⟩

theorem Told.quiets (geometry : Geometry t) (record : Record sha1 t f) (told : Told prompt hello f)
    (moves : Quiets sha1 kernel f next) (few : f.session.peers.promoted < 2 ^ 32)
    (calm : next.session.peers.promoted = f.session.peers.promoted) : Told prompt hello next := by
  have along : Record sha1 t next ∧ f.session.peers.promoted ≤ next.session.peers.promoted ∧
      (next.session.peers.promoted = f.session.peers.promoted → Told prompt hello next) := by
    clear calm
    induction moves with
    | refl => exact ⟨record, Nat.le_refl _, fun _ => told⟩
    | @tail middle after _ last ih =>
      obtain ⟨records, more, tells⟩ := ih
      have grown := (Named.quiet geometry records.books.custody last).1
      refine ⟨records.quiet geometry last, Nat.le_trans more grown, ?_⟩
      intro same
      have level : middle.session.peers.promoted = f.session.peers.promoted := by omega
      exact (tells level).quiet geometry records last (by omega) (by omega)
  exact along.2.2 calm

theorem Told.ask (geometry : Geometry t) (record : Record sha1 t f) (told : Told prompt hello f)
    (idle : joinedIds f.queue = []) {after : Session} (ask : Ask f.session after) :
    Told prompt hello { f with session := after } := by
  have valid := record.books.valid
  cases ask with
  | ask id c choice now req pieces found unchoked slot picked =>
    obtain ⟨opened, pp, b, pick⟩ := PieceManager.pickBlock_some geometry valid _ _ _ _ _ _ picked
    apply told.mild
    refine ⟨List.Sublist.refl _, rfl, rfl, pick.same_have, ?_⟩
    intro other c found
    obtain ⟨old, present, same | ⟨-, longer⟩⟩ := find_modify_some found
    · exact ⟨old, present, Or.inl (by rw [same])⟩
    · refine ⟨old, present, Or.inr ⟨?_, .request req, trivial, by rw [longer]; rfl⟩⟩
      rw [idle]
      exact List.not_mem_nil
  | decline id c choice pieces picked =>
    have same := PieceManager.pickBlock_none geometry valid _ _ _ _ _ picked
    subst same
    exact told

theorem Told.asks (geometry : Geometry t) (record : Record sha1 t f) (told : Told prompt hello f)
    (idle : joinedIds f.queue = []) {after : Session} (asks : Asks f.session after) :
    Told prompt hello { f with session := after } := by
  have along : Record sha1 t { f with session := after } ∧ Told prompt hello { f with session := after } := by
    induction asks with
    | refl => exact ⟨record, told⟩
    | @tail middle last _ ask ih =>
      exact ⟨Record.ask (f := { f with session := middle }) geometry ih.1 ask,
        Told.ask (f := { f with session := middle }) geometry ih.1 ih.2 idle ask⟩
  exact along.2

end Runs

/-- Nobody is promoted and no piece is gained. -/
structure Steady (s next : Session) : Prop where
  promoted : next.peers.promoted = s.peers.promoted
  have_ : next.pieces.have_ = s.pieces.have_

section Steps

variable {sha1 : Bytes → Bytes} {kernel : Kernel} {t : TorrentFile} {s next : Session}

theorem Steady.refl (s : Session) : Steady s s := ⟨rfl, rfl⟩

theorem Steady.trans {last : Session} (early : Steady s next) (late : Steady next last) : Steady s last :=
  ⟨late.promoted.trans early.promoted, late.have_.trans early.have_⟩

theorem dispatchOther_steady {event : PeerEvent} (dispatched : s.dispatchOther kernel event = .ok next) :
    Steady s next := by
  cases event with
  | joined id =>
    cases dispatched
    exact ⟨by rw [onJoined_peers], rfl⟩
  | request id req =>
    simp only [dispatchOther, onRequest] at dispatched
    split at dispatched
    · cases dispatched
      exact Steady.refl s
    · split at dispatched
      · cases dispatched
        exact Steady.refl s
      · split at dispatched
        · cases dispatched
          exact ⟨rfl, rfl⟩
        · cases dispatched
        · cases dispatched
          exact ⟨rfl, rfl⟩
  | choke id reqs =>
    cases dispatched
    exact ⟨rfl, release_have _ reqs⟩
  | dropped id reqs =>
    cases dispatched
    exact ⟨rfl, release_have _ reqs⟩
  | unchoke id =>
    cases dispatched
    exact Steady.refl s
  | piece id block =>
    cases dispatched
    exact Steady.refl s

theorem dispatchOthers_steady (events : List PeerEvent)
    (dispatched : dispatchOthers kernel events s = .ok next) : Steady s next := by
  induction events generalizing s with
  | nil =>
    cases dispatched
    exact Steady.refl _
  | cons event events ih =>
    obtain ⟨middle, first, others⟩ := bind_ok dispatched
    exact (dispatchOther_steady first).trans (ih others)

theorem banAll_steady (order : Bytes → List Nat) (hosts : List Bytes)
    (banned : banAll kernel order hosts s = .ok next) : Steady s next := by
  induction hosts generalizing s with
  | nil =>
    cases banned
    exact Steady.refl _
  | cons host hosts ih =>
    obtain ⟨middle, first, others⟩ := bind_ok banned
    have one : Steady s middle := by
      unfold Session.ban PeerManager.isBanned at first
      split at first
      · cases first
        exact Steady.refl s
      · rename_i fresh
        rw [ban_fresh host (order host) (fun member => fresh (decide_eq_true member))] at first
        have dropped : Steady s { s with peers := (({ s.peers with
            banned := insert host s.peers.banned } : PeerManager).dropAll []
              (s.peers.peersOf host (order host))).1 } := ⟨(dropAll_frame _ [] _).promoted, rfl⟩
        exact dropped.trans (dispatchOthers_steady _ first)
    exact one.trans (ih others)

theorem expireAll_steady (s : Session) (cutoff : Time) (ids : List Nat) :
    Steady s (s.expireAll cutoff ids) := by
  induction ids generalizing s with
  | nil => exact Steady.refl s
  | cons id ids ih =>
    have one : Steady s (expirePeer cutoff s id) := by
      unfold expirePeer
      split
      · exact Steady.refl s
      · dsimp only
        split
        · exact Steady.refl s
        · exact ⟨rfl, release_have _ _⟩
    exact one.trans (ih (expirePeer cutoff s id))

theorem settleRound_steady (s : Session) (env : Env) (fresh : List Peer) (now : Time) (order : List Nat) :
    Steady s (s.settleRound env fresh now order) := by
  have dialled : Steady s (s.addFresh env fresh) := by
    unfold addFresh
    split
    · exact Steady.refl s
    · exact ⟨(addPeers_apart env s.peers fresh).promoted, rfl⟩
  have noted : ∀ before : Session, Steady before before.noteCompletion := by
    intro before
    unfold noteCompletion
    split
    · exact ⟨rfl, rfl⟩
    · exact Steady.refl before
  exact (dialled.trans (expireAll_steady _ _ _)).trans (noted _)

theorem asks_steady (geometry : Geometry t) (valid : PieceManager.Valid t s.pieces) (asks : Asks s next) :
    Steady s next := by
  have along : PieceManager.Valid t next.pieces ∧ Steady s next := by
    induction asks with
    | refl => exact ⟨valid, Steady.refl s⟩
    | tail _ ask ih =>
      cases ask with
      | ask id c choice now req pieces found unchoked slot picked =>
        obtain ⟨opened, pp, b, pick⟩ := PieceManager.pickBlock_some geometry ih.1 _ _ _ _ _ _ picked
        exact ⟨pick.next_valid, ih.2.trans ⟨rfl, pick.same_have⟩⟩
      | decline id c choice pieces picked =>
        have same := PieceManager.pickBlock_none geometry ih.1 _ _ _ _ _ picked
        subst same
        exact ih
  exact along.2

/-- Only rounds promote, and only a verified block gains a piece, after its bytes are written. -/
inductive Progress (sha1 : Bytes → Bytes) (kernel : Kernel) (sys : Sys) : Input → Sys → Prop
  | round (order : List Nat) (revents : Nat → Nat) (env : Env) (next : Sys) (polling : sys.phase = .polling)
      (moved : next = { sys with
        session := (sys.session.pollRound order revents env).1
        phase := .dispatching (sys.session.pollRound order revents env).2
        deliveries := sys.deliveries ++
          delivered sys.session.peers.conns (sys.session.pollRound order revents env).2 }) :
      Progress sha1 kernel sys (.poll order revents env) next
  | steady (input : Input) (next : Sys) (kept : Steady sys.session next.session) :
      Progress sha1 kernel sys input next
  | stored (order : Bytes → List Nat) (next : Sys) (id : Nat) (block : Block) (rest : List PeerEvent)
      (hosts : List Bytes) (result : BlockResult) (judged : Session)
      (front : sys.phase = .dispatching (.piece id block :: rest))
      (outcome : Judged sha1 kernel sys.session id block result hosts judged)
      (kept : Steady judged next.session) : Progress sha1 kernel sys (.dispatch order) next

theorem step_progress (geometry : Geometry t) {sys next : Sys} {input : Input}
    (valid : PieceManager.Valid t sys.session.pieces) (moves : step sha1 kernel sys input = some next) :
    Progress sha1 kernel sys input next := by
  obtain ⟨session, phase, deliveries, filed⟩ := sys
  unfold step at moves
  split at moves
  · cases moves
    exact .steady _ _ ⟨rfl, rfl⟩
  · rename_i order revents env here
    cases moves
    exact .round order revents env _ here rfl
  · rename_i event rest order here
    split at moves
    · cases moves
    · rename_i after dispatched
      cases moves
      cases event with
      | piece id block =>
        obtain ⟨⟨result, taken⟩, took, onward⟩ := bind_ok dispatched
        obtain ⟨⟨hosts, judged⟩, verdict, banned⟩ := bind_ok onward
        exact .stored order _ id block rest hosts result judged here
          (judge_cases sha1 kernel session taken judged id block result hosts took verdict)
          (banAll_steady order hosts banned)
      | _ =>
        simp only [dispatch] at dispatched
        exact .steady _ _ (dispatchOther_steady dispatched)
  · cases moves
    exact .steady _ _ (settleRound_steady session _ _ _ _)
  · rename_i env here
    cases moves
    exact .steady _ _ (asks_steady geometry valid (fillAll_sends env session).asks)
  · cases moves

end Steps

def Input.Prompt : Input → Prop
  | .poll _ _ env => PromptEnv env
  | _ => True

section Reached

variable {sha1 : Bytes → Bytes} {kernel : Kernel} {t : TorrentFile} {prompt : Prop} {hello : Bytes} {sys next : Sys}
  {input : Input}

theorem Told.calm_step (geometry : Geometry t) (record : Record sha1 t sys.flow) (told : Told prompt hello sys.flow)
    (moves : step sha1 kernel sys input = some next) (few : sys.session.peers.promoted < 2 ^ 32)
    (calm : next.session.peers.promoted = sys.session.peers.promoted) : Told prompt hello next.flow := by
  rcases step_cases sha1 kernel sys next input moves with quiets | ⟨⟨env, -, filling⟩, asks, same⟩
  · exact told.quiets geometry record quiets few calm
  · have idle : joinedIds sys.flow.queue = [] := by
      simp only [Sys.flow, filling]
      rfl
    rw [same]
    exact told.asks geometry record idle asks

theorem Told.step (geometry : Geometry t) (record : Record sha1 t sys.flow) (told : Told prompt hello sys.flow)
    (moves : step sha1 kernel sys input = some next)
    (patient : prompt → input.Prompt)
    (few : next.session.peers.promoted < 2 ^ 32) : Told prompt hello next.flow := by
  cases step_progress geometry record.books.valid moves with
  | round order revents env _ polling moved =>
    subst moved
    have room := record.books.custody.room
    have grown := (acts_fixed (pollRound_acts order revents env room).1).promoted
    have named := record.named (Nat.lt_of_le_of_lt grown few)
    have idle : sys.flow.queue = [] := by
      simp only [Sys.flow, polling]
      rfl
    apply told.round named room idle order revents env few
    intro id c found late
    rcases pollRound_enqueued order revents env patient room
        (fun id c found => (named.ids id c found).1) few found with ⟨old, present, -⟩ | ⟨-, opening⟩
    · exact absurd (named.ids id old present).1 (Nat.not_lt.mpr late)
    · rw [told.handshake] at opening
      exact opening
  | steady _ _ kept =>
    rw [kept.promoted] at few
    exact told.calm_step geometry record moves few kept.promoted
  | stored order _ id block rest hosts result judged front outcome kept =>
    have calm := kept.promoted.trans outcome.identities.1
    rw [calm] at few
    exact told.calm_step geometry record moves few calm

theorem begins_told (prompt : Prop) (begins : Begins sha1 kernel t sys) :
    Told prompt (ownHandshake sys.session.peers) sys.flow := by
  have fresh := begins_fresh begins
  obtain ⟨-, -, phase, -, -⟩ := begins
  have alone : ∀ id, sys.flow.session.peers.conns.find? id = none := by
    intro id
    rw [show sys.flow.session.peers.conns = Table.empty from fresh.conns]
    rfl
  refine ⟨?_, rfl, ?_, ?_⟩
  · simp only [Sys.flow, phase, Phase.queue]
    exact List.Pairwise.nil
  · intro id c found
    rw [alone] at found
    cases found
  · intro id c found
    rw [alone] at found
    cases found

/-- The runs in which, if so promised, no round is slow. -/
abbrev Timely (prompt : Prop) (sha1 : Bytes → Bytes) (kernel : Kernel) (t : TorrentFile) : Sys → Prop :=
  ReachableWithin (Session.step sha1 kernel) (Begins sha1 kernel t)
    (fun _ input => prompt → input.Prompt)

theorem reached_promoted (reached : Reached sha1 kernel t sys)
    (moves : Session.step sha1 kernel sys input = some next) :
    sys.session.peers.promoted ≤ next.session.peers.promoted := by
  have record := reached_record reached
  cases step_progress (reached_geometry reached) record.books.valid moves with
  | round order revents env _ polling moved =>
    subst moved
    exact (acts_fixed (pollRound_acts order revents env record.books.custody.room).1).promoted
  | steady _ _ kept => exact Nat.le_of_eq kept.promoted.symm
  | stored order _ id block rest hosts result judged front outcome kept =>
    exact Nat.le_of_eq (kept.promoted.trans outcome.identities.1).symm

theorem timely_told (within : Timely prompt sha1 kernel t sys) (few : sys.session.peers.promoted < 2 ^ 32) :
    Told prompt (ownHandshake sys.session.peers) sys.flow := by
  have geometry := reached_geometry within.reachable
  have along : sys.session.peers.promoted < 2 ^ 32 → ∃ hello, Told prompt hello sys.flow := by
    clear few
    induction within with
    | start sys begins => exact fun _ => ⟨_, begins_told prompt begins⟩
    | next sys after input before patient moves ih =>
      intro few
      have reached := before.reachable
      have grown := reached_promoted reached moves
      obtain ⟨hello, told⟩ := ih (Nat.lt_of_le_of_lt grown few)
      exact ⟨hello, told.step geometry (reached_record reached) moves patient few⟩
  obtain ⟨hello, told⟩ := along few
  have same : ownHandshake sys.session.peers = hello := told.handshake
  rw [same]
  exact told

/-- However slow the rounds are, nothing but keep-alives comes between our handshake and the
Bitfield. -/
theorem informed_regardless (reached : Reached sha1 kernel t sys) (few : sys.session.peers.promoted < 2 ^ 32)
    {id : Nat} {c : PeerConnection} (found : sys.session.peers.conns.find? id = some c)
    (greeted : .joined id ∉ sys.phase.queue) :
    Informed False (ownHandshake sys.session.peers) sys.session.pieces.have_ c.enqueued := by
  have within : Timely False sha1 kernel t sys := Transition.Reachable.within reached (fun _ _ => False.elim)
  exact (timely_told within few).informed id c found (fun waiting => greeted ((mem_joinedIds _ _).mp waiting))

end Reached

section Example

/-- We dial a peer, and the client stops for a minute after the peer's handshake has come. -/
def stopped : List Input :=
  let dialing := { quietEnv with dial := fun _ => .started 4, inetPton := fun _ => true }
  let late := fun site => match site with
    | .sweep => seconds 60
    | .expireInbound => seconds 60
    | .expireOutbound => seconds 60
    | _ => 0
  [.poll [] (fun _ => 0) quietEnv, .settle dialing [⟨ascii "h", ascii "1"⟩] 0 [],
    .fill ⟨[], fun _ _ => ⟨[], 0⟩, fun _ _ => 0, [], fun _ => ⟨[], 0⟩, fun _ => 0⟩,
    .poll [] (fun _ => pollOut) { quietEnv with send := fun _ => .accepted 68 }] ++ roundEnd ++
  [.poll [] (fun _ => pollIn) { quietEnv with
      recv := fun _ => .data (Wire.buildHandshake oneByteWanted (List.replicate 20 8))
      clock := late }, .dispatch (fun _ => [])]

def oneGain : List Input :=
  welcome oneByteWanted (ascii "h") ++
    [arrives 1 (ascii "h") (Message.bytes (.piece 0 0 [1])), .dispatch (fun _ => [])]

end Example

end TorrentPeer.Session
