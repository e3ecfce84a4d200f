import TorrentPeer.Runtime.Arrivals
import TorrentPeer.Runtime.Custody

/-! `PeerManager` behind its public interface: any sequence of calls, with any answers of
the system. A banned host stays out. -/

namespace TorrentPeer.PeerManager

open Wire Transition

inductive Op where
  | buildFds (order : List Nat)
  | handleEvents (env : Env) (pfds : List PollFd)
  | addPeers (env : Env) (peers : List Peer)
  /-- One of the `send_*` calls. -/
  | send (id : Nat) (message : Message) (now : Time)
  | broadcastHave (index : Nat)
  | ban (host : Bytes) (order : List Nat)
  /-- What `Session` writes through `connections()`. -/
  | expire (id : Nat) (pending : List PendingRequest) (snubbed : Bool)

def perform (pm : PeerManager) : Op → PeerManager × List PeerEvent
  | .buildFds order => ((pm.buildFds order).2, [])
  | .handleEvents env pfds => pm.handleEvents env pfds
  | .addPeers env peers => (pm.addPeers env peers, [])
  | .send id message now =>
    ({ pm with conns := pm.conns.modify id (fun c => sendNoted c now message) }, [])
  | .broadcastHave index => (pm.broadcastHave index, [])
  | .ban host order => pm.ban host order
  | .expire id pending snubbed =>
    ({ pm with conns := pm.conns.modify id (fun c =>
      { c with pending := pending, snubbed := snubbed }) }, [])

def Used : PeerManager → Prop :=
  Reachable (fun pm op => some (pm.perform op).1)
    (fun pm => ∃ torrent peerId listenSock maxPeers, create torrent peerId listenSock maxPeers = .ok pm)

theorem create_empty {torrent : TorrentFile} {peerId : Bytes} {listenSock : Option Nat} {maxPeers : Nat}
    {pm : PeerManager} (created : create torrent peerId listenSock maxPeers = .ok pm) :
    pm.conns = Table.empty ∧ pm.inbound = [] ∧ pm.outbound = [] ∧ pm.candidates = [] ∧ pm.known = ∅ ∧
      pm.promoted = 0 := by
  unfold create at created
  split at created
  · cases created
  · cases created
    exact ⟨rfl, rfl, rfl, rfl, rfl, rfl⟩

section Sends

variable (pm : PeerManager) (id : Nat) (change : PeerConnection → PeerConnection)

theorem modify_frame : Frame pm { pm with conns := pm.conns.modify id change } :=
  ⟨rfl, rfl, rfl, rfl, rfl, rfl, by simp⟩

theorem broadcastHave_frame (index : Nat) : Frame pm (pm.broadcastHave index) :=
  ⟨rfl, rfl, rfl, rfl, rfl, rfl, by simp [broadcastHave]⟩

theorem dropAll_frame (out : List PeerEvent) (ids : List Nat) : Frame pm (pm.dropAll out ids).1 :=
  (serves_dropAll pm out ids).frame

end Sends

theorem perform_room (pm : PeerManager) (op : Op) (room : Room pm) : Room (pm.perform op).1 := by
  cases op with
  | buildFds order => exact (buildFds_apart pm order).room room
  | handleEvents env pfds => exact (handleEvents_vets env pfds pm room).2
  | addPeers env peers => exact (addPeers_apart env pm peers).room room
  | send id message now => exact (modify_frame pm id _).room room
  | broadcastHave index => exact (broadcastHave_frame pm index).room room
  | ban host order => exact (ban_acts pm host order room).2
  | expire id pending snubbed => exact (modify_frame pm id _).room room

theorem used_room {pm : PeerManager} (used : Used pm) : Room pm := by
  refine Reachable.invariant ?_ ?_ used
  · rintro pm ⟨torrent, peerId, listenSock, maxPeers, created⟩
    obtain ⟨conns, inbound, outbound, -⟩ := create_empty created
    rw [Room, conns, inbound, outbound]
    exact Nat.zero_le _
  · intro pm next op room moved
    cases moved
    exact perform_room pm op room

def Clean (pm : PeerManager) : Prop :=
  ∀ id c, pm.conns.find? id = some c → c.peer.host ∉ pm.banned

section Cleanness

variable {pm : PeerManager}

theorem newcomer_peer (pm : PeerManager) (sock : Socket) (peer : Peer) (now : Time) (answers : Bool) :
    (newcomer pm sock peer now answers).peer = peer := by
  cases answers <;> rfl

theorem spares_clean {w next : World} {banned : Finset Bytes} (same : w.pm.banned = banned)
    (moves : Reaches act (Act.Spares banned) w next) (clean : Clean w.pm) : Clean next.pm := by
  have step : ∀ state after a, Act.Spares banned a → Clean state.pm ∧ state.pm.banned = banned →
      act state a = some after → Clean after.pm ∧ after.pm.banned = banned := by
    rintro state after a ⟨own, spares⟩ ⟨before, kept⟩ moved
    have still := (act_fixed own moved).banned
    refine ⟨?_, still.trans kept⟩
    intro id c found
    rw [still]
    rcases act_connection own moved found with
      ⟨old, present, unchanged | ⟨-, touch⟩ | ⟨-, answered⟩⟩ | ⟨-, -, -, -, sock, peer, now, answers, promoted, fresh⟩
    · rw [unchanged]
      exact before id old present
    · rw [(touches_keeper touch).peer]
      exact before id old present
    · rw [answered]
      exact before id old present
    · rw [fresh, newcomer_peer, kept]
      exact spares sock peer now answers promoted
  exact (Reaches.preserves step moves ⟨clean, same⟩).1

theorem modify_clean (clean : Clean pm) (id : Nat) (change : PeerConnection → PeerConnection)
    (same : ∀ c, (change c).peer = c.peer) : Clean { pm with conns := pm.conns.modify id change } := by
  intro other c found
  obtain ⟨old, present, unchanged | ⟨-, changed⟩⟩ := find_modify_some found
  · rw [unchanged]
    exact clean other old present
  · rw [changed, same]
    exact clean other old present

theorem dropAll_conns (pm : PeerManager) (out : List PeerEvent) (ids : List Nat) (id : Nat) :
    (pm.dropAll out ids).1.conns.find? id = if id ∈ ids then none else pm.conns.find? id := by
  induction ids generalizing pm out with
  | nil => simp [dropAll]
  | cons first ids ih =>
    rw [dropAll]
    simp only [ih]
    have one : (pm.drop first out).1.conns.find? id = if id = first then none else pm.conns.find? id := by
      unfold drop
      split
      · rename_i absent
        split
        · rename_i here
          rw [here, absent]
        · rfl
      · exact Table.find_erase _ _ _
    rw [one]
    by_cases here : id = first
    · simp [here]
    · simp [here]

def peersOf (pm : PeerManager) (host : Bytes) (order : List Nat) : List Nat :=
  (pm.conns.arrange order).filter (fun id =>
    decide ((pm.conns.find? id).map (fun c => c.peer.host) = some host))

theorem mem_peersOf (pm : PeerManager) (host : Bytes) (order : List Nat) (id : Nat) :
    id ∈ pm.peersOf host order ↔ ∃ c, pm.conns.find? id = some c ∧ c.peer.host = host := by
  rw [peersOf, List.mem_filter, Table.arrange_member, decide_eq_true_iff, Option.map_eq_some_iff]
  constructor
  · rintro ⟨-, c, found, same⟩
    exact ⟨c, found, same⟩
  · rintro ⟨c, found, same⟩
    exact ⟨⟨c, found⟩, c, found, same⟩

theorem peersOf_nodup (pm : PeerManager) (host : Bytes) (order : List Nat) :
    (pm.peersOf host order).Nodup :=
  ((pm.conns.arrange_perm order).nodup_iff.mpr pm.conns.distinct).filter _

theorem ban_fresh (host : Bytes) (order : List Nat) (fresh : host ∉ pm.banned) :
    pm.ban host order =
      ({ pm with banned := insert host pm.banned } : PeerManager).dropAll [] (pm.peersOf host order) := by
  rw [ban, if_neg fresh]
  rfl

theorem ban_banned (host : Bytes) (order : List Nat) : (pm.ban host order).1.banned = insert host pm.banned := by
  by_cases already : host ∈ pm.banned
  · rw [ban, if_pos already, Finset.insert_eq_of_mem already]
  · rw [ban_fresh host order already]
    exact (dropAll_frame _ _ _).banned

theorem ban_clean (clean : Clean pm) (host : Bytes) (order : List Nat) :
    Clean (pm.ban host order).1 ∧ host ∈ (pm.ban host order).1.banned := by
  have listed : host ∈ (pm.ban host order).1.banned := by
    rw [ban_banned]
    exact Finset.mem_insert_self _ _
  refine ⟨?_, listed⟩
  by_cases already : host ∈ pm.banned
  · rw [ban, if_pos already]
    exact clean
  · intro id c found
    rw [ban_banned, Finset.mem_insert, not_or]
    rw [ban_fresh host order already, dropAll_conns] at found
    split at found
    · cases found
    · rename_i kept
      exact ⟨fun here => kept ((mem_peersOf _ _ _ _).mpr ⟨c, found, here⟩), clean id c found⟩

theorem perform_clean (op : Op) (room : Room pm) (clean : Clean pm) : Clean (pm.perform op).1 := by
  cases op with
  | buildFds order => exact clean
  | handleEvents env pfds =>
    have spared := vets_spares (handleEvents_vets env pfds pm room).1
    have kept := spares_clean (w := ⟨pm, []⟩) rfl spared clean
    exact kept
  | addPeers env peers =>
    intro id c found
    have apart := addPeers_apart env pm peers
    simp only [perform] at found ⊢
    rw [apart.conns] at found
    rw [apart.same]
    exact clean id c found
  | send id message now => exact modify_clean clean id _ (fun c => by cases message <;> rfl)
  | broadcastHave index =>
    intro id c found
    simp only [perform, broadcastHave, Table.find_update] at found
    obtain ⟨old, present, same⟩ := Option.map_eq_some_iff.mp found
    rw [← same]
    exact clean id old present
  | ban host order => exact (ban_clean clean host order).1
  | expire id pending snubbed => exact modify_clean clean id _ (fun _ => rfl)

theorem used_clean (used : Used pm) : Clean pm := by
  induction used with
  | start pm begins =>
    obtain ⟨torrent, peerId, listenSock, maxPeers, created⟩ := begins
    intro id c found
    rw [(create_empty created).1] at found
    cases found
  | next pm after op earlier moved clean =>
    cases moved
    exact perform_clean op (used_room earlier) clean

end Cleanness

section Entries

variable (host : Bytes)

def entriesOf {α : Type} (entry : α → Nat × Peer) (pending : List α) : List (Nat × Peer) :=
  (pending.map entry).filter (fun p => decide (p.2.host = host))

def inboundOf (pm : PeerManager) : List (Nat × Peer) :=
  entriesOf host (fun p => (p.sock.fd, p.peer)) pm.inbound

def outboundOf (pm : PeerManager) : List (Nat × Peer) :=
  entriesOf host (fun p => (p.sock.fd, p.peer)) pm.outbound

theorem entriesOf_append {α : Type} (entry : α → Nat × Peer) (first second : List α) :
    entriesOf host entry (first ++ second) = entriesOf host entry first ++ entriesOf host entry second := by
  simp [entriesOf]

theorem entriesOf_cons {α : Type} (entry : α → Nat × Peer) (p : α) (rest : List α) :
    entriesOf host entry (p :: rest) = entriesOf host entry [p] ++ entriesOf host entry rest :=
  entriesOf_append host entry [p] rest

theorem entriesOf_other {α : Type} (entry : α → Nat × Peer) (p : α) (other : (entry p).2.host ≠ host) :
    entriesOf host entry [p] = [] := by
  simp [entriesOf, other]

theorem entriesOf_sublist {α : Type} (entry : α → Nat × Peer) {first second : List α}
    (fewer : first.Sublist second) : (entriesOf host entry first).Sublist (entriesOf host entry second) :=
  (fewer.map entry).filter _

theorem advanceInbound_entry (env : Env) (pm : PeerManager) (p : PendingInbound) (out : List PeerEvent)
    (q : PendingInbound) (kept : (advanceInbound env pm p out).1 = some q) :
    q.sock = p.sock ∧ q.peer = p.peer := by
  unfold advanceInbound at kept
  split at kept
  · cases kept
    exact ⟨rfl, rfl⟩
  · cases kept
  · split at kept <;> cases kept

theorem inboundLoop_entries (env : Env) (pfds : List PollFd) (pending : List PendingInbound) (at_ : Nat)
    (pm : PeerManager) (out : List PeerEvent) :
    (entriesOf host (fun p => (p.sock.fd, p.peer)) (inboundLoop env pfds pending at_ pm out).1).Sublist
      (entriesOf host (fun p => (p.sock.fd, p.peer)) pending) := by
  induction pending generalizing at_ pm out with
  | nil => exact List.Sublist.refl _
  | cons p rest ih =>
    simp only [inboundLoop]
    generalize stepped : (if reventsAt pfds at_ = 0 then (some p, pm, out)
      else if readable (reventsAt pfds at_) = true then advanceInbound env pm p out
      else (none, pm, out)) = result
    obtain ⟨kept, next, events⟩ := result
    dsimp only
    rw [entriesOf_append, entriesOf_cons]
    refine List.Sublist.append ?_ (ih (at_ + 1) next events)
    cases kept with
    | none => exact List.nil_sublist _
    | some q =>
      have same : q.sock = p.sock ∧ q.peer = p.peer := by
        split at stepped
        · cases stepped
          exact ⟨rfl, rfl⟩
        · split at stepped
          · exact advanceInbound_entry env pm p out q (by rw [stepped])
          · cases stepped
      simp only [entriesOf, Option.toList_some, List.map_cons, List.map_nil, same.1, same.2]
      exact List.Sublist.refl _

theorem advanceOutbound_entry (env : Env) (pm : PeerManager) (p : PendingOutbound) (rev : Nat)
    (out : List PeerEvent) :
    (advanceOutbound env pm p rev out).2.1.sock.fd = p.sock.fd ∧
      (advanceOutbound env pm p rev out).2.1.peer = p.peer := by
  unfold advanceOutbound
  split
  · split <;> exact ⟨rfl, rfl⟩
  · split
    · exact ⟨rfl, rfl⟩
    · split
      · exact ⟨rfl, rfl⟩
      · exact ⟨rfl, rfl⟩
      · split <;> exact ⟨rfl, rfl⟩

theorem outboundLoop_entries (env : Env) (pfds : List PollFd) (pending : List PendingOutbound) (at_ : Nat)
    (pm : PeerManager) (out : List PeerEvent) :
    (entriesOf host (fun p => (p.sock.fd, p.peer)) (outboundLoop env pfds pending at_ pm out).1).Sublist
      (entriesOf host (fun p => (p.sock.fd, p.peer)) pending) := by
  induction pending generalizing at_ pm out with
  | nil => exact List.Sublist.refl _
  | cons p rest ih =>
    simp only [outboundLoop]
    generalize stepped : (if reventsAt pfds at_ = 0 then (HandshakeResult.keep, p, pm, out)
      else advanceOutbound env pm p (reventsAt pfds at_) out) = result
    obtain ⟨verdict, q, next, events⟩ := result
    dsimp only
    have same : q.sock.fd = p.sock.fd ∧ q.peer = p.peer := by
      split at stepped
      · cases stepped
        exact ⟨rfl, rfl⟩
      · have entry := advanceOutbound_entry env pm p (reventsAt pfds at_) out
        rw [stepped] at entry
        exact entry
    have tail := ih (at_ + 1) (if verdict = .drop then
      { next with known := next.known.erase (key p.peer) } else next) events
    generalize (outboundLoop env pfds rest (at_ + 1) (if verdict = .drop then
      { next with known := next.known.erase (key p.peer) } else next) events).1 = still at tail ⊢
    rw [entriesOf_cons host _ p rest]
    split
    · rw [entriesOf_cons]
      refine List.Sublist.append ?_ tail
      simp only [entriesOf, List.map_cons, List.map_nil, same.1, same.2]
      exact List.Sublist.refl _
    · exact tail.trans (List.sublist_append_right _ _)

theorem acceptAll_entries (env : Env) (accepted : List Accepted) (pm : PeerManager)
    (refused : host ∈ pm.banned) :
    inboundOf host (accepted.foldl (acceptOne env) pm) = inboundOf host pm ∧
      outboundOf host (accepted.foldl (acceptOne env) pm) = outboundOf host pm := by
  induction accepted generalizing pm with
  | nil => exact ⟨rfl, rfl⟩
  | cons a rest ih =>
    have one : host ∈ (acceptOne env pm a).banned ∧
        inboundOf host (acceptOne env pm a) = inboundOf host pm ∧
        outboundOf host (acceptOne env pm a) = outboundOf host pm := by
      unfold acceptOne
      split
      · exact ⟨refused, rfl, rfl⟩
      · split
        · exact ⟨refused, rfl, rfl⟩
        · rename_i welcome
          have other : a.host ≠ host := by
            rintro rfl
            exact welcome refused
          refine ⟨refused, ?_, rfl⟩
          simp only [inboundOf, entriesOf_append]
          rw [entriesOf_other host _ _ other, List.append_nil]
    obtain ⟨inbound, outbound⟩ := ih (acceptOne env pm a) one.1
    exact ⟨inbound.trans one.2.1, outbound.trans one.2.2⟩

theorem startDial_peer {env : Env} {peer : Peer} {attempt : Nat} {o : PendingOutbound}
    (started : startDial env peer attempt = some o) : o.peer = peer := by
  unfold startDial at started
  split at started
  · cases started
  · split at started
    · cases started
    · cases started
    · cases started
      rfl

theorem dialLoop_entries (env : Env) (waiting : List Peer) (attempt : Nat) (pm : PeerManager)
    (refused : host ∈ pm.banned) :
    inboundOf host (dialLoop env waiting attempt pm) = inboundOf host pm ∧
      outboundOf host (dialLoop env waiting attempt pm) = outboundOf host pm := by
  induction waiting generalizing attempt pm with
  | nil => exact ⟨rfl, rfl⟩
  | cons p rest ih =>
    rw [dialLoop]
    split
    · dsimp only
      split
      · exact ih (attempt + 1) { pm with known := pm.known.erase (key p) } refused
      · rename_i o dialled
        obtain ⟨inbound, outbound⟩ := ih (attempt + 1) { pm with outbound := pm.outbound ++ [o] } refused
        refine ⟨inbound, outbound.trans ?_⟩
        have other : o.peer.host ≠ host := by
          split at dialled
          · cases dialled
          · rename_i welcome
            rw [startDial_peer dialled]
            rintro rfl
            exact welcome refused
        simp only [outboundOf, entriesOf_append]
        rw [entriesOf_other host _ _ other, List.append_nil]
    · exact ⟨rfl, rfl⟩

/-- Nothing new from the host: its entries are some of those there were. -/
structure Shrinks (before after : PeerManager) : Prop where
  inbound : (inboundOf host after).Sublist (inboundOf host before)
  outbound : (outboundOf host after).Sublist (outboundOf host before)

theorem Shrinks.trans {first second third : PeerManager} (early : Shrinks host first second)
    (late : Shrinks host second third) : Shrinks host first third :=
  ⟨late.inbound.trans early.inbound, late.outbound.trans early.outbound⟩

theorem Shrinks.of_eq {before after : PeerManager} (inbound : inboundOf host after = inboundOf host before)
    (outbound : outboundOf host after = outboundOf host before) : Shrinks host before after :=
  ⟨inbound ▸ List.Sublist.refl _, outbound ▸ List.Sublist.refl _⟩

theorem Frame.shrinks {before after : PeerManager} (frame : Frame before after) :
    Shrinks host before after :=
  Shrinks.of_eq host (by rw [inboundOf, inboundOf, frame.inbound])
    (by rw [outboundOf, outboundOf, frame.outbound])

theorem inboundPass_shrinks (env : Env) (pfds : List PollFd) (pm : PeerManager) (out : List PeerEvent)
    (room : Room pm) : Shrinks host pm (inboundPass env pfds pm out).1 := by
  have limit : pm.conns.size + pm.inbound.length + pm.outbound.length ≤ pm.maxPeers := room
  have admits := (inboundLoop_admits env pfds pm.inbound pm.inboundAt pm out (by omega)).2
  have entries := inboundLoop_entries host env pfds pm.inbound pm.inboundAt pm out
  refine ⟨entries, ?_⟩
  rw [outboundOf, outboundOf]
  dsimp only [inboundPass]
  rw [admits.outbound]

theorem outboundPass_shrinks (env : Env) (pfds : List PollFd) (pm : PeerManager) (out : List PeerEvent)
    (room : Room pm) : Shrinks host pm (outboundPass env pfds pm out).1 := by
  have limit : pm.conns.size + pm.inbound.length + pm.outbound.length ≤ pm.maxPeers := room
  have admits := (outboundLoop_admits env pfds pm.outbound pm.outboundAt pm out (by omega)).2
  have entries := outboundLoop_entries host env pfds pm.outbound pm.outboundAt pm out
  refine ⟨?_, entries⟩
  rw [inboundOf, inboundOf]
  dsimp only [outboundPass]
  rw [admits.inbound]

theorem expire_shrinks (pm : PeerManager) (timeout now later : Time) :
    Shrinks host pm (expireOutbound (expireInbound pm timeout now) later) :=
  ⟨entriesOf_sublist host _ List.filter_sublist, entriesOf_sublist host _ List.filter_sublist⟩

theorem servePass_shrinks (env : Env) (pfds : List PollFd) (pm : PeerManager) (room : Room pm) :
    Shrinks host pm (servePass env pfds pm).1 := by
  have first := inboundPass_shrinks host env pfds pm [] room
  obtain ⟨-, still, -⟩ := inboundPass_joins env pfds pm [] room
  have second := outboundPass_shrinks host env pfds (inboundPass env pfds pm []).1
    (inboundPass env pfds pm []).2 still
  exact (first.trans host second).trans host ((reads_serveLoop env pfds _ _ _ _).serves.frame.shrinks host)

theorem handleEvents_shrinks (env : Env) (pfds : List PollFd) (pm : PeerManager) (room : Room pm)
    (refused : host ∈ pm.banned) : Shrinks host pm (handleEvents env pfds pm).1 := by
  have served := servePass_shrinks host env pfds pm room
  obtain ⟨moves, -⟩ := servePass_vets env pfds pm room
  have kept := (acts_fixed (vets_acts moves)).banned
  unfold handleEvents
  generalize servePass env pfds pm = result at served kept ⊢
  obtain ⟨next, events, toDrop⟩ := result
  dsimp only at served kept ⊢
  have swept := dropAll_frame next events (toDrop ++ idlePeers next env.order (env.clock .sweep))
  generalize next.dropAll events (toDrop ++ idlePeers next env.order (env.clock .sweep)) = left
    at swept ⊢
  obtain ⟨rest, all⟩ := left
  dsimp only at swept ⊢
  have expired := expire_shrinks host (rest.keepAlives (env.clock .sweep)) kHandshakeTimeout
    (env.clock .expireInbound) (env.clock .expireOutbound)
  have still : host ∈ (expireOutbound (expireInbound (rest.keepAlives (env.clock .sweep))
      kHandshakeTimeout (env.clock .expireInbound)) (env.clock .expireOutbound)).banned := by
    show host ∈ rest.banned
    rw [swept.banned, kept]
    exact refused
  have before : Shrinks host pm (rest.keepAlives (env.clock .sweep)) :=
    (served.trans host (swept.shrinks host)).trans host (Shrinks.of_eq host rfl rfl)
  generalize expireOutbound (expireInbound (rest.keepAlives (env.clock .sweep)) kHandshakeTimeout
    (env.clock .expireInbound)) (env.clock .expireOutbound) = last at expired still ⊢
  have accepted : Shrinks host last (if last.listenSock ≠ none ∧ reventsAt pfds 0 &&& pollIn ≠ 0 then
      acceptNew env last else last) ∧ host ∈ (if last.listenSock ≠ none ∧ reventsAt pfds 0 &&& pollIn ≠ 0
        then acceptNew env last else last).banned := by
    refine ⟨?_, ?_⟩
    · split
      · unfold acceptNew
        split
        · exact Shrinks.of_eq host rfl rfl
        · obtain ⟨inbound, outbound⟩ := acceptAll_entries host env env.accepts last still
          exact Shrinks.of_eq host inbound outbound
      · exact Shrinks.of_eq host rfl rfl
    · rw [(acceptReady_apart env pfds last).same]
      exact still
  obtain ⟨inbound, outbound⟩ := dialLoop_entries host env _ 0 _ accepted.2
  exact ((before.trans host expired).trans host accepted.1).trans host (Shrinks.of_eq host inbound outbound)

theorem addPeers_shrinks (env : Env) (peers : List Peer) (pm : PeerManager) (refused : host ∈ pm.banned) :
    Shrinks host pm (addPeers env pm peers) := by
  obtain ⟨known, candidates, queued⟩ := queuePeers_frame peers pm
  rw [addPeers, queued]
  obtain ⟨inbound, outbound⟩ := dialLoop_entries host env candidates 0
    { pm with known := known, candidates := candidates } refused
  exact Shrinks.of_eq host inbound outbound

theorem ban_frame (pm : PeerManager) (other : Bytes) (order : List Nat) :
    Shrinks host pm (pm.ban other order).1 ∧ pm.banned ⊆ (pm.ban other order).1.banned := by
  by_cases already : other ∈ pm.banned
  · rw [ban, if_pos already]
    exact ⟨Shrinks.of_eq host rfl rfl, Finset.Subset.refl _⟩
  · rw [ban_fresh other order already]
    have frame := dropAll_frame { pm with banned := insert other pm.banned } [] (pm.peersOf other order)
    have same : Shrinks host pm { pm with banned := insert other pm.banned } := Shrinks.of_eq host rfl rfl
    refine ⟨same.trans host (frame.shrinks host), ?_⟩
    rw [frame.banned]
    exact Finset.subset_insert _ _

end Entries

theorem dropAll_events (pm : PeerManager) (out : List PeerEvent) (ids : List Nat) (distinct : ids.Nodup) :
    (pm.dropAll out ids).2 = out ++ ids.filterMap (fun id =>
      (pm.conns.find? id).map (fun c => PeerEvent.dropped id (requestsOf c.pending))) := by
  induction ids generalizing pm out with
  | nil => simp [dropAll]
  | cons first ids ih =>
    obtain ⟨fresh, others⟩ := List.nodup_cons.mp distinct
    rw [dropAll]
    simp only [ih _ _ others]
    have unaffected : ids.filterMap (fun id => ((pm.drop first out).1.conns.find? id).map (fun c =>
        PeerEvent.dropped id (requestsOf c.pending))) = ids.filterMap (fun id =>
        (pm.conns.find? id).map (fun c => PeerEvent.dropped id (requestsOf c.pending))) := by
      apply List.filterMap_congr
      intro id member
      have alone := dropAll_conns pm out [first] id
      have different : id ≠ first := fun here => fresh (here ▸ member)
      simp only [dropAll, List.mem_singleton, different, if_false] at alone
      rw [alone]
    rw [unaffected, List.filterMap_cons]
    cases found : pm.conns.find? first with
    | none => simp [drop, found]
    | some c => simp [drop, found]

theorem joins_present {w next : World} {env : Env} {pm : PeerManager}
    (moves : Reaches act (Act.Joins env pm) w next)
    (present : ∀ id, .joined id ∈ w.out → ∃ c, w.pm.conns.find? id = some c) :
    ∀ id, .joined id ∈ next.out → ∃ c, next.pm.conns.find? id = some c := by
  have step : ∀ state after a, Act.Joins env pm a →
      (∀ id, .joined id ∈ state.out → ∃ c, state.pm.conns.find? id = some c) → act state a = some after →
      ∀ id, .joined id ∈ after.out → ∃ c, after.pm.conns.find? id = some c := by
    intro state after a joins before moved id member
    cases a with
    | promote sock peer now answers =>
      simp only [act, promote] at moved
      split at moved
      · cases moved
        have here (fresh : PeerConnection) :
            ∃ c, (state.pm.conns.emplace (state.pm.promoted % 2 ^ 32) fresh).find? id = some c := by
          rw [Table.find_emplace_or]
          split
          · cases state.pm.conns.find? (state.pm.promoted % 2 ^ 32) with
            | none => exact ⟨fresh, rfl⟩
            | some old => exact ⟨old, rfl⟩
          · rename_i other
            rcases List.mem_append.mp member with earlier | new
            · exact before id earlier
            · cases List.mem_singleton.mp new
              exact absurd rfl other
        cases answers with
        | false => exact here _
        | true =>
          simp only [if_true, sendTo, Table.find_modify]
          split
          · obtain ⟨c, found⟩ := here _
            exact ⟨_, Option.map_eq_some_iff.mpr ⟨c, found, rfl⟩⟩
          · exact here _
      · cases moved
    | outside other =>
      cases moved
      exact before id member
    | send _ _ _ => exact joins.1.1.elim
    | ban _ => exact joins.1.1.elim
    | collect => exact joins.1.1.elim
    | _ => exact absurd trivial joins.2.1
  exact Reaches.preserves step moves present

theorem handleEvents_joined (env : Env) (pfds : List PollFd) (pm : PeerManager) (id : Nat)
    (member : .joined id ∈ (handleEvents env pfds pm).2) : .joined id ∈ (admitted env pfds pm).out := by
  obtain ⟨ids, events, -⟩ := handleEvents_phases env pfds pm
  rw [events, ← mem_joinedIds, (serves_dropAll _ _ ids).joined] at member
  have served := (hears_servePass env pfds pm).reads.serves.joined
  rw [served] at member
  exact (mem_joinedIds _ id).mp member

/-- Whoever `handle_events` reports as joined is connected once the handshakes are done with, and is not
from a banned host. -/
theorem handleEvents_arrived (env : Env) (pfds : List PollFd) (pm : PeerManager) (room : Room pm)
    (clean : Clean pm) (id : Nat) (member : .joined id ∈ (handleEvents env pfds pm).2) :
    ∃ c, (admitted env pfds pm).pm.conns.find? id = some c ∧ c.peer.host ∉ pm.banned := by
  obtain ⟨joins, -, same⟩ := admitted_joins env pfds pm room
  have admits := handleEvents_joined env pfds pm id member
  obtain ⟨c, found⟩ := joins_present joins (fun _ none_yet => absurd none_yet List.not_mem_nil) id admits
  have kept := spares_clean (w := ⟨pm, []⟩) rfl (vets_spares (joins_vets joins)) clean id c found
  rw [same.banned] at kept
  exact ⟨c, found, kept⟩

/-- What a call does about a host that is banned already. -/
structure Refuses (host : Bytes) (pm : PeerManager) (op : Op) : Prop where
  banned : host ∈ (pm.perform op).1.banned
  conns : ∀ id c, (pm.perform op).1.conns.find? id = some c → c.peer.host ≠ host
  /-- Every promotion, the only act that adds a Joined event, is of another host. -/
  joined : ∀ id, .joined id ∈ (pm.perform op).2 →
    Reaches act (Act.Spares pm.banned) ⟨pm, []⟩ ⟨(pm.perform op).1, (pm.perform op).2⟩
  /-- The peer that a Joined event names, as it is connected after the handshakes, is of another host. -/
  arrived : ∀ id, .joined id ∈ (pm.perform op).2 → ∃ env pfds c, op = .handleEvents env pfds ∧
    (admitted env pfds pm).pm.conns.find? id = some c ∧ c.peer.host ≠ host
  entries : Shrinks host pm (pm.perform op).1

theorem perform_refuses (pm : PeerManager) (op : Op) (room : Room pm) (clean : Clean pm) (host : Bytes)
    (refused : host ∈ pm.banned) : Refuses host pm op := by
  have after := perform_clean op room clean
  have gone : host ∈ (pm.perform op).1.banned → ∀ id c, (pm.perform op).1.conns.find? id = some c →
      c.peer.host ≠ host := by
    rintro still id c found rfl
    exact after id c found still
  have same : ∀ next : PeerManager, next.banned = pm.banned → host ∈ next.banned :=
    fun next kept => kept ▸ refused
  cases op with
  | buildFds order => exact ⟨refused, gone refused, by simp [perform], by simp [perform], Shrinks.of_eq host rfl rfl⟩
  | handleEvents env pfds =>
    have moves := (handleEvents_vets env pfds pm room).1
    have still : host ∈ (pm.handleEvents env pfds).1.banned := same _ (acts_fixed (vets_acts moves)).banned
    refine ⟨still, gone still, fun _ _ => vets_spares moves, ?_, handleEvents_shrinks host env pfds pm room refused⟩
    intro id member
    obtain ⟨c, found, allowed⟩ := handleEvents_arrived env pfds pm room clean id member
    exact ⟨env, pfds, c, rfl, found, fun same => allowed (same ▸ refused)⟩
  | addPeers env peers =>
    have still : host ∈ (pm.addPeers env peers).banned := by
      rw [(addPeers_apart env pm peers).same]
      exact refused
    exact ⟨still, gone still, by simp [perform], by simp [perform], addPeers_shrinks host env peers pm refused⟩
  | send id message now =>
    exact ⟨refused, gone refused, by simp [perform], by simp [perform], (modify_frame pm id _).shrinks host⟩
  | broadcastHave index =>
    exact ⟨refused, gone refused, by simp [perform], by simp [perform], (broadcastHave_frame pm index).shrinks host⟩
  | ban other order =>
    obtain ⟨entries, more⟩ := ban_frame host pm other order
    have nobody : ∀ id, PeerEvent.joined id ∉ (pm.ban other order).2 := by
      intro id member
      unfold PeerManager.ban at member
      split at member
      · cases member
      · obtain ⟨_, _, shape⟩ := dropAll_dropped _ _ _ member
        cases shape
    exact ⟨more refused, gone (more refused), fun id member => absurd member (nobody id),
      fun id member => absurd member (nobody id), entries⟩
  | expire id pending snubbed =>
    exact ⟨refused, gone refused, by simp [perform], by simp [perform], (modify_frame pm id _).shrinks host⟩

/-- A banned host stays out: no connection is from one, a ban drops every connection of the
host with one event each, and no later call lets it in again. -/
theorem banned_stay_out (pm : PeerManager) (used : Used pm) :
    (∀ id c, pm.conns.find? id = some c → c.peer.host ∉ pm.banned) ∧
    (∀ host order, host ∈ (pm.ban host order).1.banned ∧
      ∃ ids : List Nat, ids.Nodup ∧
        (∀ id, id ∈ ids ↔ ∃ c, pm.conns.find? id = some c ∧ c.peer.host = host) ∧
        (∀ id, (pm.ban host order).1.conns.find? id = if id ∈ ids then none else pm.conns.find? id) ∧
        (pm.ban host order).2 = ids.filterMap (fun id =>
          (pm.conns.find? id).map (fun c => .dropped id (requestsOf c.pending)))) ∧
    (∀ host ∈ pm.banned, ∀ op, Refuses host pm op) := by
  have room := used_room used
  have clean := used_clean used
  refine ⟨clean, ?_, fun host refused op => perform_refuses pm op room clean host refused⟩
  intro host order
  have distinct := peersOf_nodup pm host order
  refine ⟨(ban_clean clean host order).2, pm.peersOf host order, distinct, mem_peersOf pm host order, ?_⟩
  by_cases already : host ∈ pm.banned
  · -- nobody from the host is left to drop
    have nobody : pm.peersOf host order = [] := by
      rw [List.eq_nil_iff_forall_not_mem]
      intro id member
      obtain ⟨c, found, here⟩ := (mem_peersOf pm host order id).mp member
      exact clean id c found (here ▸ already)
    rw [nobody, ban, if_pos already]
    exact ⟨by simp, rfl⟩
  · rw [ban_fresh host order already]
    exact ⟨dropAll_conns _ [] _, dropAll_events _ [] _ distinct⟩

section Example

open Session

def oneArrival : Option PeerManager :=
  match create oneByte (List.replicate 20 7) (some 3) 60 with
  | .error _ => none
  | .ok pm => run (fun pm op => some (pm.perform op).1) pm [
      .handleEvents { quietEnv with accepts := [⟨5, ascii "h", 1⟩] } [⟨3, pollIn, pollIn⟩],
      .buildFds [],
      .handleEvents { quietEnv with recv := fun _ => .data (buildHandshake oneByte (List.replicate 20 8)) }
        [⟨3, pollIn, 0⟩, ⟨5, pollIn, pollIn⟩]]

theorem oneArrival_used {pm : PeerManager} (ran : oneArrival = some pm) : Used pm := by
  unfold oneArrival at ran
  split at ran
  · cases ran
  · rename_i fresh created
    have begins : Used fresh := Reachable.start fresh ⟨_, _, _, _, created⟩
    exact begins.run ran

end Example

/-- A connected peer is dropped by the ban of its host and does not come back. -/
theorem banned_stay_out_one_peer :
    ∃ pm, Used pm ∧ (pm.ban (ascii "h") []).2 = [.dropped 0 []] ∧
      ∀ op, Refuses (ascii "h") (pm.ban (ascii "h") []).1 op := by
  have seen : oneArrival.map (fun pm => (pm.ban (ascii "h") []).2) = some [.dropped 0 []] := by
    decide +kernel
  obtain ⟨pm, ran, dropped⟩ := Option.map_eq_some_iff.mp seen
  have used := oneArrival_used ran
  have after : Used (pm.ban (ascii "h") []).1 := .next pm _ (.ban (ascii "h") []) used rfl
  have there := ((banned_stay_out pm used).2.1 (ascii "h") []).1
  exact ⟨pm, used, dropped, (banned_stay_out _ after).2.2 (ascii "h") there⟩

end TorrentPeer.PeerManager
