import TorrentPeer.Runtime.Attempts
import TorrentPeer.Runtime.Arrivals

/-! Who is behind an identifier: connections keep their host, and blocks come from the
connection that was asked for them. -/

namespace TorrentPeer.Session

open Torrent PeerManager PieceManager

/-- The block came in answer to a request, on the connection with this identifier, from the
host that is on file for it. -/
def Delivered (f : Flow) (id : Nat) (block : Block) : Prop :=
  ∃ delivery ∈ f.deliveries, delivery.block = block ∧ delivery.conn.id = id ∧
    answerOf block ∈ requestsOf delivery.conn.pending ∧
    f.session.bans.hosts.find? id = some delivery.conn.peer.host

structure Named (f : Flow) : Prop where
  ids : ∀ id c, f.session.peers.conns.find? id = some c → id < f.session.peers.promoted ∧ c.id = id
  known : ∀ id host, f.session.bans.hosts.find? id = some host → id < f.session.peers.promoted
  hosts : ∀ id c, f.session.peers.conns.find? id = some c →
    f.session.bans.hosts.find? id = some c.peer.host ∨
      id ∈ joinedIds f.queue ∧ f.session.bans.hosts.find? id = none
  once : (joinedIds f.queue).Nodup
  queued : ∀ id block, .piece id block ∈ f.queue → Delivered f id block
  filed : ∀ entry ∈ f.filed, Delivered f entry.peerId entry.block

section Moves

variable {sha1 : Bytes → Bytes} {kernel : Kernel} {t : TorrentFile}

theorem Delivered.mono {f next : Flow} {id : Nat} {block : Block} (delivered : Delivered f id block)
    (more : ∀ delivery ∈ f.deliveries, delivery ∈ next.deliveries)
    (kept : ∀ host, f.session.bans.hosts.find? id = some host →
      next.session.bans.hosts.find? id = some host) : Delivered next id block := by
  obtain ⟨delivery, member, same, name, asked, host⟩ := delivered
  exact ⟨delivery, more delivery member, same, name, asked, kept _ host⟩

/-- Most moves change neither identities nor hosts. -/
structure Alike (f next : Flow) : Prop where
  promoted : next.session.peers.promoted = f.session.peers.promoted
  hosts : next.session.bans.hosts = f.session.bans.hosts
  conns : ∀ id c, next.session.peers.conns.find? id = some c →
    ∃ before, f.session.peers.conns.find? id = some before ∧ c.id = before.id ∧ c.peer = before.peer
  joined : joinedIds next.queue = joinedIds f.queue
  pieces : ∀ id block, .piece id block ∈ next.queue → .piece id block ∈ f.queue
  deliveries : next.deliveries = f.deliveries
  filed : ∀ entry ∈ next.filed, entry ∈ f.filed ∨ .piece entry.peerId entry.block ∈ f.queue

theorem Named.alike {f next : Flow} (named : Named f) (alike : Alike f next) : Named next := by
  have moved : ∀ id block, Delivered f id block → Delivered next id block := by
    intro id block delivered
    exact delivered.mono (by rw [alike.deliveries]; exact fun _ member => member)
      (by rw [alike.hosts]; exact fun _ found => found)
  refine ⟨?_, ?_, ?_, ?_, ?_, ?_⟩
  · intro id c found
    obtain ⟨before, present, name, -⟩ := alike.conns id c found
    rw [alike.promoted, name]
    exact named.ids id before present
  · rw [alike.promoted, alike.hosts]
    exact named.known
  · intro id c found
    obtain ⟨before, present, -, peer⟩ := alike.conns id c found
    rw [alike.hosts, alike.joined, peer]
    exact named.hosts id before present
  · rw [alike.joined]
    exact named.once
  · intro id block member
    exact moved id block (named.queued id block (alike.pieces id block member))
  · intro entry member
    rcases alike.filed entry member with old | new
    · exact moved _ _ (named.filed entry old)
    · exact moved _ _ (named.queued _ _ new)

theorem Named.round {f : Flow} (named : Named f) (idle : f.queue = []) (order : List Nat)
    (revents : Nat → Nat) (env : Env) (room : f.session.peers.Room)
    (few : (f.session.pollRound order revents env).1.peers.promoted < 2 ^ 32) :
    Named { f with
      session := (f.session.pollRound order revents env).1
      queue := (f.session.pollRound order revents env).2
      deliveries := f.deliveries ++
        delivered f.session.peers.conns (f.session.pollRound order revents env).2 } := by
  have since := acts_since (pollRound_acts order revents env room).1 few
  have onFile : ∀ id c, f.session.peers.conns.find? id = some c →
      f.session.bans.hosts.find? id = some c.peer.host := by
    intro id c found
    rcases named.hosts id c found with host | ⟨waiting, -⟩
    · exact host
    · rw [idle] at waiting
      cases waiting
  have unchanged : (f.session.pollRound order revents env).1.bans = f.session.bans := rfl
  generalize f.session.pollRound order revents env = result at *
  obtain ⟨after, events⟩ := result
  dsimp only at *
  refine ⟨?_, ?_, ?_, since.once, ?_, ?_⟩
  · intro id c found
    rcases since.conns id c found with ⟨before, present, keeper⟩ | ⟨-, high, name, -, -⟩
    · obtain ⟨low, name⟩ := named.ids id before present
      exact ⟨Nat.lt_of_lt_of_le low since.more, keeper.id.trans name⟩
    · exact ⟨high, name⟩
  · intro id host found
    rw [unchanged] at found
    exact Nat.lt_of_lt_of_le (named.known id host found) since.more
  · intro id c found
    dsimp only
    rw [unchanged]
    rcases since.conns id c found with ⟨before, present, keeper⟩ | ⟨low, -, -, -, joined⟩
    · left
      rw [keeper.peer]
      exact onFile id before present
    · right
      refine ⟨(mem_joinedIds _ _).mpr joined, ?_⟩
      by_contra present
      obtain ⟨host, found⟩ := Option.ne_none_iff_exists'.mp present
      have old := named.known id host found
      omega
  · intro id block member
    obtain ⟨before, present, asked⟩ := since.pieces id block member
    refine ⟨⟨before, block⟩, ?_, rfl, (named.ids id before present).2, asked, ?_⟩
    · refine List.mem_append_right _ (List.mem_filterMap.mpr ⟨_, member, ?_⟩)
      dsimp only
      rw [present]
      rfl
    · dsimp only
      rw [unchanged]
      exact onFile id before present
  · intro entry member
    exact (named.filed entry member).mono (fun _ old => List.mem_append_left _ old)
      (by dsimp only; rw [unchanged]; exact fun _ found => found)

theorem greeted_identity (have_ : Bitfield) (complete : Bool) (c : PeerConnection) :
    (greeted have_ complete c).id = c.id ∧ (greeted have_ complete c).peer = c.peer := by
  cases complete <;> exact ⟨rfl, rfl⟩

theorem modify_identity {conns : Table Nat PeerConnection} (id : Nat)
    (change : PeerConnection → PeerConnection)
    (same : ∀ c, (change c).id = c.id ∧ (change c).peer = c.peer) (other : Nat) (after : PeerConnection)
    (found : (conns.modify id change).find? other = some after) :
    ∃ before, conns.find? other = some before ∧ after.id = before.id ∧ after.peer = before.peer := by
  obtain ⟨c, present, unchanged | ⟨-, changed⟩⟩ := find_modify_some found
  · exact ⟨c, present, by rw [unchanged], by rw [unchanged]⟩
  · exact ⟨c, present, by rw [changed]; exact (same c).1, by rw [changed]; exact (same c).2⟩

theorem onJoined_hosts (s : Session) (id other : Nat) : (s.onJoined id).bans.hosts.find? other =
    if other = id then ((s.peers.conns.find? id).map (fun c => c.peer.host)).or (s.bans.hosts.find? id)
    else s.bans.hosts.find? other := by
  dsimp only [onJoined, greet]
  cases found : s.peers.conns.find? id with
  | none =>
    dsimp only [Option.map_none, Option.none_or]
    split
    · rename_i same
      rw [same]
    · rfl
  | some c => exact Table.find_assign _ _ _ _

theorem onJoined_identity {s : Session} {id other : Nat} {after : PeerConnection}
    (found : (s.onJoined id).peers.conns.find? other = some after) :
    ∃ before, s.peers.conns.find? other = some before ∧ after.id = before.id ∧ after.peer = before.peer := by
  rw [onJoined_peers] at found
  exact modify_identity id _ (greeted_identity _ _) other after found

theorem Named.onFile {f : Flow} (named : Named f) (id : Nat) {other : Nat} {host : Bytes}
    (found : f.session.bans.hosts.find? other = some host) :
    (f.session.onJoined id).bans.hosts.find? other = some host := by
  rw [onJoined_hosts]
  by_cases here : other = id
  · subst here
    rw [if_pos rfl]
    cases present : f.session.peers.conns.find? other with
    | none => exact found
    | some c =>
      rcases named.hosts other c present with onFile | ⟨-, absent⟩
      · rw [onFile] at found
        exact found
      · rw [absent] at found
        cases found
  · rw [if_neg here]
    exact found

theorem Named.join {f : Flow} (named : Named f) (id : Nat) (rest : List PeerEvent)
    (front : f.queue = .joined id :: rest) :
    Named { f with session := f.session.onJoined id, queue := rest } := by
  have waiting : joinedIds f.queue = id :: joinedIds rest := by
    rw [front]
    rfl
  have promoted : (f.session.onJoined id).peers.promoted = f.session.peers.promoted := by
    rw [onJoined_peers]
  have moved : ∀ other block, Delivered f other block →
      Delivered { f with session := f.session.onJoined id, queue := rest } other block :=
    fun other block delivered => delivered.mono (fun _ member => member) (fun _ => named.onFile id)
  refine ⟨?_, ?_, ?_, ?_, ?_, ?_⟩
  · intro other after found
    obtain ⟨before, present, name, -⟩ := onJoined_identity found
    dsimp only
    rw [promoted, name]
    exact named.ids other before present
  · intro other host found
    dsimp only at found ⊢
    rw [promoted]
    rw [onJoined_hosts] at found
    split at found
    · rename_i same
      subst same
      cases present : f.session.peers.conns.find? other with
      | none =>
        rw [present] at found
        exact named.known other host found
      | some c => exact (named.ids other c present).1
    · exact named.known other host found
  · intro other after found
    obtain ⟨before, present, -, peer⟩ := onJoined_identity found
    dsimp only
    rw [peer]
    by_cases here : other = id
    · subst here
      left
      rw [onJoined_hosts, if_pos rfl, present]
      rfl
    · rcases named.hosts other before present with onFile | ⟨queued, absent⟩
      · exact Or.inl (named.onFile id onFile)
      · right
        rw [waiting] at queued
        exact ⟨(List.mem_cons.mp queued).resolve_left here, by rw [onJoined_hosts, if_neg here]; exact absent⟩
  · have once := named.once
    rw [waiting] at once
    exact (List.nodup_cons.mp once).2
  · intro other block member
    exact moved other block (named.queued other block (by rw [front]; exact List.mem_cons_of_mem _ member))
  · intro entry member
    exact moved _ _ (named.filed entry member)

theorem Alike.still {f next : Flow} (promoted : next.session.peers.promoted = f.session.peers.promoted)
    (hosts : next.session.bans.hosts = f.session.bans.hosts)
    (conns : ∀ id c, next.session.peers.conns.find? id = some c →
      ∃ before, f.session.peers.conns.find? id = some before ∧ c.id = before.id ∧ c.peer = before.peer)
    (queue : next.queue = f.queue) (deliveries : next.deliveries = f.deliveries)
    (filed : next.filed = f.filed) : Alike f next :=
  ⟨promoted, hosts, conns, by rw [queue], by rw [queue]; exact fun _ _ member => member, deliveries,
    by rw [filed]; exact fun _ member => Or.inl member⟩

theorem Judged.identities {s judged : Session} {id : Nat} {block : Block} {result : BlockResult}
    {hosts : List Bytes} (outcome : Judged sha1 kernel s id block result hosts judged) :
    judged.peers.promoted = s.peers.promoted ∧ judged.bans.hosts = s.bans.hosts ∧
      ∀ other c, judged.peers.conns.find? other = some c →
        ∃ before, s.peers.conns.find? other = some before ∧ c.id = before.id ∧ c.peer = before.peer := by
  cases outcome with
  | rejected count piece => exact ⟨rfl, rfl, fun _ c found => ⟨c, found, rfl, rfl⟩⟩
  | incomplete count pp b pieces fits verdict => exact ⟨rfl, rfl, fun _ c found => ⟨c, found, rfl, rfl⟩⟩
  | failed count pp b pieces piece fits verdict =>
    obtain ⟨senders, sent, some_sent⟩ := s.bans.onBlock_sent id block
    cases verdict
    exact ⟨rfl, (BanManager.onPieceFailed_state _ _ senders sent some_sent).1,
      fun _ c found => ⟨c, found, rfl, rfl⟩⟩
  | verified count pp b pieces piece written fits verdict stored =>
    refine ⟨rfl, (BanManager.onPieceVerified_state _ _).1, ?_⟩
    intro other c found
    simp only [broadcastHave, Table.find_update] at found
    obtain ⟨before, present, same⟩ := Option.map_eq_some_iff.mp found
    exact ⟨before, present, by rw [← same]; rfl, by rw [← same]; rfl⟩

theorem popped_joined {event : PeerEvent} {queue rest : List PeerEvent} (front : queue = event :: rest)
    (other : ∀ id, event ≠ .joined id) : joinedIds rest = joinedIds queue := by
  rw [front]
  cases event with
  | joined id => exact absurd rfl (other id)
  | _ => rfl

theorem Named.quiet (geometry : Geometry t) {f next : Flow} (custody : Custody sha1 t f)
    (move : Quiet sha1 kernel f next) :
    f.session.peers.promoted ≤ next.session.peers.promoted ∧
      (next.session.peers.promoted < 2 ^ 32 → Named f → Named next) := by
  have still : ∀ {after : Flow}, Alike f after → f.session.peers.promoted ≤ after.session.peers.promoted ∧
      (after.session.peers.promoted < 2 ^ 32 → Named f → Named after) :=
    fun alike => ⟨Nat.le_of_eq alike.promoted.symm, fun _ named => named.alike alike⟩
  have same : ∀ id c, f.session.peers.conns.find? id = some c →
      ∃ before, f.session.peers.conns.find? id = some before ∧ c.id = before.id ∧ c.peer = before.peer :=
    fun _ c found => ⟨c, found, rfl, rfl⟩
  cases move with
  | build order => exact still (.still rfl rfl same rfl rfl rfl)
  | round order revents env idle =>
    obtain ⟨acts, -⟩ := pollRound_acts order revents env custody.room
    exact ⟨(acts_fixed acts).promoted, fun few named => named.round idle order revents env custody.room few⟩
  | dial env fresh =>
    have apart := addPeers_apart env f.session.peers fresh
    refine still (.still ?_ rfl ?_ rfl rfl rfl)
    · dsimp only
      rw [apart.same]
      rfl
    · intro id c found
      dsimp only at found
      rw [apart.conns] at found
      exact same id c found
  | complete => exact still (.still rfl rfl same rfl rfl rfl)
  | convict host hosts listed => exact still (.still rfl rfl same rfl rfl rfl)
  | release event rest reqs front gives =>
    refine still ⟨rfl, rfl, same, ?_, ?_, rfl, fun _ member => Or.inl member⟩
    · apply popped_joined front
      rintro id rfl
      cases gives
    · intro id block member
      rw [front]
      exact List.mem_cons_of_mem _ member
  | join id rest front =>
    refine ⟨?_, fun _ named => named.join id rest front⟩
    dsimp only
    rw [onJoined_peers]
  | serve id req rest session front served =>
    have popped : joinedIds rest = joinedIds f.queue := popped_joined front (by simp)
    have pieces : ∀ id block, PeerEvent.piece id block ∈ rest → .piece id block ∈ f.queue := by
      intro id block member
      rw [front]
      exact List.mem_cons_of_mem _ member
    cases serve_cases geometry custody.sound id req session
        (custody.typed _ (by simp [front])) served with
    | ignored read kept => exact still ⟨rfl, rfl, same, popped, pieces, rfl, fun _ member => Or.inl member⟩
    | sent read kept held space inside count =>
      exact still ⟨rfl, rfl, modify_identity id _ (fun _ => ⟨rfl, rfl⟩), popped, pieces, rfl,
        fun _ member => Or.inl member⟩
  | file id block rest result taken judged hosts front idle took verdict =>
    have outcome := judge_cases sha1 kernel f.session taken judged id block result hosts took verdict
    obtain ⟨promoted, names, conns⟩ := outcome.identities
    refine still ⟨promoted, names, conns, popped_joined front (by simp), ?_, rfl, ?_⟩
    · intro other arrived member
      rw [front]
      exact List.mem_cons_of_mem _ member
    · intro entry member
      rcases List.mem_append.mp member with old | new
      · exact Or.inl old
      · rw [List.mem_singleton.mp new, front]
        exact Or.inr (List.mem_cons_self ..)
  | expel id c found =>
    refine still (.still (drop_frame f.session.peers id []).promoted rfl ?_ rfl rfl rfl)
    intro other after present
    rw [expel_conns id c found, Table.find_erase] at present
    split at present
    · cases present
    · exact same other after present
  | expire id c cutoff found =>
    exact still (.still rfl rfl (modify_identity id _ (fun _ => ⟨rfl, rfl⟩)) rfl rfl rfl)

theorem Named.ask {f : Flow} {next : Session} (named : Named f) (ask : Ask f.session next) :
    Named { f with session := next } := by
  cases ask with
  | ask id c choice now req pieces found unchoked slot picked =>
    exact named.alike (.still rfl rfl (modify_identity id _ (fun _ => ⟨rfl, rfl⟩)) rfl rfl rfl)
  | decline id c choice pieces picked =>
    exact named.alike (.still rfl rfl (fun _ c found => ⟨c, found, rfl, rfl⟩) rfl rfl rfl)

theorem begins_named {sys : Sys} (begins : Begins sha1 kernel t sys) : Named sys.flow := by
  have fresh := begins_fresh begins
  obtain ⟨-, -, phase, -, unfiled⟩ := begins
  have alone : ∀ id, sys.flow.session.peers.conns.find? id = none := by
    intro id
    rw [show sys.flow.session.peers.conns = Table.empty from fresh.conns]
    rfl
  have unknown : ∀ id, sys.flow.session.bans.hosts.find? id = none := by
    intro id
    rw [show sys.flow.session.bans = BanManager.create from fresh.bans]
    rfl
  have quiet : sys.flow.queue = [] := by simp [Sys.flow, phase, Phase.queue]
  have blank : sys.flow.filed = [] := unfiled
  refine ⟨?_, ?_, ?_, ?_, ?_, ?_⟩
  · intro id c found
    rw [alone] at found
    cases found
  · intro id host found
    rw [unknown] at found
    cases found
  · intro id c found
    rw [alone] at found
    cases found
  · rw [quiet]
    exact List.nodup_nil
  · intro id block member
    rw [quiet] at member
    cases member
  · intro entry member
    rw [blank] at member
    cases member

end Moves

/-- The books of a run in which no identifier comes around a second time. -/
structure Record (sha1 : Bytes → Bytes) (t : TorrentFile) (f : Flow) : Prop where
  books : Books sha1 t f
  named : f.session.peers.promoted < 2 ^ 32 → Named f

theorem Record.quiet {sha1 : Bytes → Bytes} {kernel : Kernel} {t : TorrentFile} (geometry : Geometry t)
    {f next : Flow} (record : Record sha1 t f) (move : Quiet sha1 kernel f next) :
    Record sha1 t next := by
  obtain ⟨grown, kept⟩ := Named.quiet geometry record.books.custody move
  exact ⟨record.books.quiet geometry move,
    fun few => kept few (record.named (Nat.lt_of_le_of_lt grown few))⟩

theorem Record.ask {sha1 : Bytes → Bytes} {t : TorrentFile} (geometry : Geometry t) {f : Flow}
    {next : Session} (record : Record sha1 t f) (ask : Ask f.session next) :
    Record sha1 t { f with session := next } := by
  have same : next.peers.promoted = f.session.peers.promoted := by cases ask <;> rfl
  refine ⟨record.books.ask geometry ask, fun few => (record.named ?_).ask ask⟩
  rw [← same]
  exact few

theorem begins_record {sha1 : Bytes → Bytes} {kernel : Kernel} {t : TorrentFile} {sys : Sys}
    (begins : Begins sha1 kernel t sys) : Record sha1 t sys.flow :=
  ⟨begins_books begins, fun _ => begins_named begins⟩

theorem reached_record {sha1 : Bytes → Bytes} {kernel : Kernel} {t : TorrentFile} {sys : Sys}
    (reached : Reached sha1 kernel t sys) : Record sha1 t sys.flow := by
  have geometry := reached_geometry reached
  exact reached_invariant (Record sha1 t) (fun _ begins => begins_record begins)
    (fun _ _ record move => record.quiet geometry move)
    (fun _ _ record ask => record.ask geometry ask) reached

end TorrentPeer.Session
