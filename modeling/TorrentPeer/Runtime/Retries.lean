import TorrentPeer.Runtime.Convictions
import TorrentPeer.Runtime.PeerCalls

/-! Retries of a piece that has failed with several senders: what follows if one peer at a
time is asked for it, and what happens as nobody sees to that. -/

namespace TorrentPeer.Session

open Splice Torrent PeerManager PieceManager Wire

/-- One peer alone is waited for, or has sent something, in the attempt in progress. -/
structure Sole (f : Flow) (index peer : Nat) : Prop where
  pending : ∀ id c, f.session.peers.conns.find? id = some c → ∀ req ∈ requestsOf c.pending,
    req.pieceIndex = index → id = peer
  queued : ∀ id block, .piece id block ∈ f.queue → block.pieceIndex = index → id = peer
  sent : ∀ entry ∈ (attemptsOf index f.filed).current, entry.peerId = peer

/-- The peer that a schedule names for the attempt in progress, by the attempts that have failed. -/
def retryOwner (owner : Nat → Nat → Nat) (f : Flow) (index : Nat) : Nat :=
  owner index (attemptsOf index f.filed).failed.length

def Exclusive (owner : Nat → Nat → Nat) (f : Flow) : Prop :=
  ∀ index, f.session.bans.evidence.find? index ≠ none → Sole f index (retryOwner owner f index)

/-- Of the peers that do not choke us, only the one of the schedule has a piece that evidence is held against. -/
def Reserved (owner : Nat → Nat → Nat) (f : Flow) : Prop :=
  ∀ index, f.session.bans.evidence.find? index ≠ none → ∀ id c, f.session.peers.conns.find? id = some c →
    c.peerChoking = false → c.hasPieces.get index = true → id = retryOwner owner f index

section Filling

variable {t : TorrentFile} {f : Flow} {owner : Nat → Nat → Nat}

theorem Reserved.ask {next : Session} (reserved : Reserved owner f) (ask : Ask f.session next) :
    Reserved owner { f with session := next } := by
  cases ask with
  | decline id c choice pieces picked => exact reserved
  | ask id c choice now req pieces found unchoked slot picked =>
    intro index held other after present choking has
    obtain ⟨old, located, same | ⟨-, same⟩⟩ := find_modify_some present
    · rw [same] at choking has
      exact reserved index held other old located choking has
    · rw [same] at choking has
      exact reserved index held other old located choking has

theorem Exclusive.ask (geometry : Geometry t) {next : Session} (valid : Valid t f.session.pieces)
    (reserved : Reserved owner f) (exclusive : Exclusive owner f) (ask : Ask f.session next) :
    Exclusive owner { f with session := next } := by
  cases ask with
  | decline id c choice pieces picked =>
    intro index held
    have sole := exclusive index held
    exact ⟨sole.pending, sole.queued, sole.sent⟩
  | ask id c choice now req pieces found unchoked slot picked =>
    obtain ⟨opened, pp, b, pick⟩ := pickBlock_some geometry valid _ _ _ _ _ _ picked
    intro index held
    have sole := exclusive index held
    refine ⟨?_, sole.queued, sole.sent⟩
    intro other after present wanted member here
    obtain ⟨old, located, same | ⟨asked, same⟩⟩ := find_modify_some present
    · rw [same] at member
      exact sole.pending other old located wanted member here
    · rw [asked, found] at located
      cases located
      have longer : requestsOf after.pending = requestsOf c.pending ++ [req] := by
        rw [same]
        exact List.map_append
      rw [longer] at member
      rcases List.mem_append.mp member with old | new
      · exact sole.pending other c (asked ▸ found) wanted old here
      · rw [List.mem_singleton.mp new] at here
        have has := pick.held
        rw [here] at has
        exact reserved index held other c (asked ▸ found) unchoked has

end Filling

section Moves

variable {sha1 : Bytes → Bytes} {kernel : Kernel} {t : TorrentFile} {f next : Flow} {owner : Nat → Nat → Nat}

theorem Exclusive.shrink (exclusive : Exclusive owner f)
    (evidence : next.session.bans.evidence = f.session.bans.evidence)
    (conns : ∀ id c, next.session.peers.conns.find? id = some c →
      ∃ old, f.session.peers.conns.find? id = some old ∧ requestsOf c.pending ⊆ requestsOf old.pending)
    (queue : ∀ event ∈ next.queue, event ∈ f.queue) (filed : next.filed = f.filed) : Exclusive owner next := by
  intro index held
  rw [evidence] at held
  have sole := exclusive index held
  rw [retryOwner, filed]
  refine ⟨?_, ?_, ?_⟩
  · intro id c found req member here
    obtain ⟨old, present, fewer⟩ := conns id c found
    exact sole.pending id old present req (fewer member) here
  · intro id block member
    exact sole.queued id block (queue _ member)
  · rw [filed]
    exact sole.sent

theorem Exclusive.round (exclusive : Exclusive owner f) (order : List Nat) (revents : Nat → Nat) (env : Env)
    (room : f.session.peers.Room) (few : (f.session.pollRound order revents env).1.peers.promoted < 2 ^ 32)
    (deliveries : List Delivery) :
    Exclusive owner { f with
      session := (f.session.pollRound order revents env).1
      queue := (f.session.pollRound order revents env).2
      deliveries := deliveries } := by
  have since := acts_since (pollRound_acts order revents env room).1 few
  intro index held
  have sole := exclusive index held
  refine ⟨?_, ?_, sole.sent⟩
  · intro id c found req member here
    rcases since.conns id c found with ⟨before, present, keeper⟩ | ⟨-, -, -, empty, -⟩
    · exact sole.pending id before present req (keeper.pending member) here
    · rw [empty] at member
      cases member
  · intro id block member here
    obtain ⟨before, present, asked⟩ := since.pieces id block member
    exact sole.pending id before present (answerOf block) asked here

theorem Balanced.nothing (balanced : Balanced f) {r : BlockRequest}
    (unrequested : f.session.pieces.isRequested r = false) :
    (∀ id c, f.session.peers.conns.find? id = some c → r ∉ requestsOf c.pending) ∧
      ∀ id block, .piece id block ∈ f.queue → answerOf block ≠ r := by
  have books := balanced r
  rw [unrequested, if_neg Bool.false_ne_true, outstanding, Nat.add_eq_zero_iff] at books
  constructor
  · intro id c found member
    have waiting : 0 < f.session.peers.conns.total (waits r) :=
      (Table.total_positive _ _).mpr ⟨id, c, found, List.count_pos_iff.mpr member⟩
    omega
  · intro id block member same
    have counted : claims r (.piece id block) ∈ f.queue.map (claims r) := List.mem_map_of_mem member
    have least := List.single_le_sum (fun _ _ => Nat.zero_le _) _ counted
    rw [claims, if_pos same] at least
    omega

theorem Verdict.failed_free {pieces after : PieceManager} {block : Block} {pp : PartialPiece} {b : Nat}
    {piece : CompletedPiece} (fits : Fits pieces block pp b)
    (verdict : Verdict sha1 pieces block pp b ⟨.pieceFailed, piece⟩ after) {r : BlockRequest}
    (here : r.pieceIndex = block.pieceIndex) : after.isRequested r = false := by
  cases verdict with
  | failed full wrong =>
    rw [isRequested, decide_eq_false_iff_not]
    rintro ⟨-, state⟩
    rw [here, stateAt] at state
    dsimp only at state
    rw [Table.find_modify, if_pos rfl, fits.found] at state
    have state := List.mem_of_getElem? state
    simp [resetPiece] at state

theorem Judged.pending {s judged : Session} {id : Nat} {block : Block} {result : BlockResult} {hosts : List Bytes}
    (outcome : Judged sha1 kernel s id block result hosts judged) (other : Nat) (c : PeerConnection)
    (found : judged.peers.conns.find? other = some c) :
    ∃ old, s.peers.conns.find? other = some old ∧ requestsOf c.pending ⊆ requestsOf old.pending := by
  cases outcome with
  | verified count pp b pieces piece written fits verdict stored =>
    simp only [broadcastHave, Table.find_update] at found
    obtain ⟨old, present, same⟩ := Option.map_eq_some_iff.mp found
    rw [← same]
    exact ⟨old, present, fun _ member => member⟩
  | _ => exact ⟨c, found, fun _ member => member⟩

theorem Judged.other_evidence {s judged : Session} {id : Nat} {block : Block} {result : BlockResult}
    {hosts : List Bytes} (outcome : Judged sha1 kernel s id block result hosts judged) {index : Nat}
    (other : index ≠ block.pieceIndex) :
    judged.bans.evidence.find? index = s.bans.evidence.find? index := by
  cases outcome with
  | rejected count piece => rfl
  | incomplete count pp b pieces fits verdict => rfl
  | failed count pp b pieces piece fits verdict =>
    obtain ⟨senders, sent, some_sent⟩ := s.bans.onBlock_sent id block
    cases verdict
    exact (BanManager.onPieceFailed_state _ _ senders sent some_sent).2.2 index other
  | verified count pp b pieces piece written fits verdict stored =>
    cases verdict
    have state := (BanManager.onPieceVerified_state (s.bans.onBlock id block)
      ⟨block.pieceIndex, (filedPiece pp block b).data⟩).2.2 index
    rw [if_neg other] at state
    exact state

theorem Exclusive.file {judged : Session} {id : Nat} {block : Block} {result : BlockResult} {hosts : List Bytes}
    {rest : List PeerEvent} (exclusive : Exclusive owner f) (front : f.queue = .piece id block :: rest)
    (outcome : Judged sha1 kernel f.session id block result hosts judged)
    (balanced : Balanced { f with
      session := judged
      queue := rest
      convicted := hosts
      filed := f.filed ++ [⟨id, block, result.status⟩] }) :
    Exclusive owner { f with
      session := judged
      queue := rest
      convicted := hosts
      filed := f.filed ++ [⟨id, block, result.status⟩] } := by
  have pending : ∀ {index peer}, Sole f index peer → ∀ other c, judged.peers.conns.find? other = some c →
      ∀ req ∈ requestsOf c.pending, req.pieceIndex = index → other = peer := by
    intro index peer sole other c found req member here
    obtain ⟨old, present, fewer⟩ := outcome.pending other c found
    exact sole.pending other old present req (fewer member) here
  have queued : ∀ {index peer}, Sole f index peer → ∀ other arrived, .piece other arrived ∈ rest →
      arrived.pieceIndex = index → other = peer := by
    intro index peer sole other arrived member
    exact sole.queued other arrived (by rw [front]; exact List.mem_cons_of_mem _ member)
  intro index held
  dsimp only at held
  by_cases here : index = block.pieceIndex
  · subst here
    have logged := attemptsOf_append block.pieceIndex f.filed ⟨id, block, result.status⟩
    rw [follow, if_neg (not_not.mpr rfl)] at logged
    cases outcome with
    | rejected count piece =>
      have sole := exclusive _ held
      rw [retryOwner, logged]
      refine ⟨pending sole, queued sole, ?_⟩
      rw [logged]
      exact sole.sent
    | incomplete count pp b pieces fits verdict =>
      have sole := exclusive _ held
      rw [retryOwner, logged]
      refine ⟨pending sole, queued sole, ?_⟩
      rw [logged]
      intro entry member
      rcases List.mem_append.mp member with old | new
      · exact sole.sent entry old
      · rw [List.mem_singleton.mp new]
        exact sole.queued id block (by rw [front]; exact List.mem_cons_self ..) rfl
    | failed count pp b pieces piece fits verdict =>
      -- the next attempt starts with nobody
      refine ⟨?_, ?_, ?_⟩
      · intro other c found req member same
        exact absurd member ((balanced.nothing (Verdict.failed_free fits verdict same)).1 other c found)
      · intro other arrived member same
        have free := Verdict.failed_free (r := answerOf arrived) fits verdict same
        exact absurd rfl ((balanced.nothing free).2 other arrived member)
      · rw [logged]
        intro entry member
        cases member
    | verified count pp b pieces piece written fits verdict stored =>
      cases verdict
      have state := (BanManager.onPieceVerified_state (f.session.bans.onBlock id block)
        ⟨block.pieceIndex, (filedPiece pp block b).data⟩).2.2 block.pieceIndex
      rw [if_pos rfl] at state
      exact absurd state held
  · rw [outcome.other_evidence here] at held
    have sole := exclusive index held
    rw [retryOwner, attempts_other index f.filed _ here]
    refine ⟨pending sole, queued sole, ?_⟩
    rw [attempts_other index f.filed _ here]
    exact sole.sent

theorem Exclusive.quiet (geometry : Geometry t) (record : Record sha1 t f) (exclusive : Exclusive owner f)
    (move : Quiet sha1 kernel f next) (few : next.session.peers.promoted < 2 ^ 32) : Exclusive owner next := by
  have books := record.books
  have after := books.quiet geometry move
  have same : ∀ id c, f.session.peers.conns.find? id = some c →
      ∃ old, f.session.peers.conns.find? id = some old ∧ requestsOf c.pending ⊆ requestsOf old.pending :=
    fun _ c found => ⟨c, found, fun _ member => member⟩
  have all : ∀ event ∈ f.queue, event ∈ f.queue := fun _ member => member
  have popped : ∀ {event rest}, f.queue = event :: rest → ∀ other ∈ rest, other ∈ f.queue := by
    intro event rest front other member
    rw [front]
    exact List.mem_cons_of_mem _ member
  cases move with
  | build order => exact exclusive.shrink rfl same all rfl
  | round order revents env idle => exact exclusive.round order revents env books.custody.room few _
  | dial env fresh =>
    refine exclusive.shrink rfl ?_ all rfl
    dsimp only
    rw [(addPeers_apart env f.session.peers fresh).conns]
    exact same
  | complete => exact exclusive.shrink rfl same all rfl
  | convict host hosts listed => exact exclusive.shrink rfl same all rfl
  | release event rest reqs front gives => exact exclusive.shrink rfl same (popped front) rfl
  | join id rest front =>
    refine exclusive.shrink ?_ ?_ (popped front) rfl
    · dsimp only [onJoined, greet]
      cases f.session.peers.conns.find? id <;> rfl
    · intro other c found
      dsimp only at found
      rw [onJoined_peers] at found
      obtain ⟨old, present, unchanged | ⟨-, changed⟩⟩ := find_modify_some found
      · exact ⟨old, present, by rw [unchanged]; exact fun _ member => member⟩
      · refine ⟨old, present, ?_⟩
        rw [changed]
        unfold greeted
        cases f.session.pieces.isComplete <;> exact fun _ member => member
  | serve id req rest session front served =>
    have typed := books.custody.typed (.request id req) (by rw [front]; exact List.mem_cons_self ..)
    cases serve_cases geometry books.custody.sound id req session typed served with
    | ignored read kept => exact exclusive.shrink rfl same (popped front) rfl
    | sent read kept held space inside count =>
      refine exclusive.shrink rfl ?_ (popped front) rfl
      intro other c found
      obtain ⟨old, present, unchanged | ⟨-, changed⟩⟩ := find_modify_some found
      · exact ⟨old, present, by rw [unchanged]; exact fun _ member => member⟩
      · exact ⟨old, present, by rw [changed]; exact fun _ member => member⟩
  | file id block rest result taken judged hosts front idle took verdict =>
    have outcome := judge_cases sha1 kernel f.session taken judged id block result hosts took verdict
    exact exclusive.file front outcome after.balanced
  | expel id c found =>
    refine exclusive.shrink rfl ?_ all rfl
    intro other after present
    rw [expel_conns id c found, Table.find_erase] at present
    split at present
    · cases present
    · exact same other after present
  | expire id c cutoff found =>
    refine exclusive.shrink rfl ?_ all rfl
    intro other after present
    obtain ⟨old, located, unchanged | ⟨-, changed⟩⟩ := find_modify_some present
    · exact ⟨old, located, by rw [unchanged]; exact fun _ member => member⟩
    · refine ⟨old, located, ?_⟩
      rw [changed, requestsOf, requestsOf, takeStale_split old.pending cutoff]
      exact List.subset_append_right _ _

end Moves

section Runs

variable {sha1 : Bytes → Bytes} {kernel : Kernel} {t : TorrentFile} {owner : Nat → Nat → Nat}

theorem within_exclusive {sys : Sys} (within : ReachedWithin sha1 kernel t (Reserved owner) sys) :
    Record sha1 t sys.flow ∧ (sys.session.peers.promoted < 2 ^ 32 → Exclusive owner sys.flow) := by
  have geometry := reached_geometry within.reached
  refine within_invariant (fun f => Record sha1 t f ∧ (f.session.peers.promoted < 2 ^ 32 → Exclusive owner f))
    ?_ ?_ ?_ within
  · intro sys begins
    refine ⟨begins_record begins, fun _ index held => ?_⟩
    have blank : sys.flow.session.bans = BanManager.create := (begins_fresh begins).bans
    rw [blank] at held
    exact absurd rfl held
  · rintro f next ⟨record, exclusive⟩ move
    have grown := (Named.quiet geometry record.books.custody move).1
    refine ⟨record.quiet geometry move, fun few => ?_⟩
    exact (exclusive (Nat.lt_of_le_of_lt grown few)).quiet geometry record move few
  · rintro f next ⟨record, exclusive⟩ - reserved asks
    -- asking moves neither chokes nor bitfields, so the schedule holds for every request of the pass
    have along : Record sha1 t { f with session := next } ∧ Reserved owner { f with session := next } ∧
        (next.peers.promoted < 2 ^ 32 → Exclusive owner { f with session := next }) := by
      induction asks with
      | refl => exact ⟨record, reserved, exclusive⟩
      | @tail middle last _ ask ih =>
        obtain ⟨kept, still, sole⟩ := ih
        have count : last.peers.promoted = middle.peers.promoted := by cases ask <;> rfl
        refine ⟨Record.ask (f := { f with session := middle }) geometry kept ask,
          Reserved.ask (f := { f with session := middle }) still ask, fun few => ?_⟩
        exact Exclusive.ask (f := { f with session := middle }) geometry kept.books.valid still
          (sole (by rw [← count]; exact few)) ask
    exact ⟨along.1, along.2.2⟩

end Runs

section Verdicts

variable {sha1 : Bytes → Bytes} {kernel : Kernel} {t : TorrentFile} {s : Session} {id : Nat} {block : Block}
  {piece : CompletedPiece}

theorem onPiece_failed {after : PieceManager}
    (filed : s.pieces.onBlock sha1 block = .ok (⟨.pieceFailed, piece⟩, after)) :
    ∃ hosts judged, Judged sha1 kernel s id block ⟨.pieceFailed, piece⟩ hosts judged ∧
      ∀ order, s.onPiece sha1 kernel order id block = banAll kernel order hosts judged := by
  have took : s.takeBlock sha1 id block = .ok (⟨.pieceFailed, piece⟩, { s with
      pieces := after
      downloaded := addU64 s.downloaded block.data.length
      bans := s.bans.onBlock id block }) := by
    rw [takeBlock, filed]
    rfl
  refine ⟨_, _, judge_cases sha1 kernel s _ _ id block _ _ took rfl, ?_⟩
  intro order
  rw [onPiece, took]
  rfl

/-- A failed attempt convicts its only sender, and nobody if there were several. -/
theorem failed_hosts {f : Flow} {judged : Session} {hosts : List Bytes} {rest : List PeerEvent}
    (geometry : Geometry t) (books : Books sha1 t f) (named : Named f) (front : f.queue = .piece id block :: rest)
    (outcome : Judged sha1 kernel f.session id block ⟨.pieceFailed, piece⟩ hosts judged) :
    piece.index = block.pieceIndex ∧
      ((∀ entry ∈ (attemptsOf block.pieceIndex f.filed).current, entry.peerId = id) →
        ∃ host, f.session.bans.hosts.find? id = some host ∧ hosts = [host]) ∧
      ((∃ entry ∈ (attemptsOf block.pieceIndex f.filed).current, entry.peerId ≠ id) → hosts = []) := by
  obtain ⟨senders, sent, some_sent⟩ := f.session.bans.onBlock_sent id block
  cases outcome with
  | failed count pp b pieces piece fits verdict =>
    cases verdict with
    | failed full wrong =>
      have account := (books.traced.tracked block.pieceIndex).account fits id .pieceFailed books.valid geometry
        (books.balanced.whole books.valid front fits) full senders sent
      have last : id ∈ senders := account.all ⟨id, block, .pieceFailed⟩ (by simp)
      rcases BanManager.onPieceFailed_cases _ ⟨block.pieceIndex, (filedPiece pp block b).data⟩
          senders sent some_sent with ⟨first, all, same⟩ | ⟨many, same⟩
      · rw [same]
        refine ⟨rfl, fun _ => ?_, ?_⟩
        · obtain ⟨delivery, -, -, -, -, known⟩ :=
            named.queued id block (by rw [front]; exact List.mem_cons_self ..)
          refine ⟨delivery.conn.peer.host, known, ?_⟩
          rw [← all id last]
          have kept : (f.session.bans.onBlock id block).hosts.find? id = some delivery.conn.peer.host := known
          rw [kept]
          rfl
        · rintro ⟨entry, member, other⟩
          have listed := account.all entry (List.mem_append_left _ member)
          exact absurd ((all _ listed).trans (all id last).symm) other
      · rw [same]
        refine ⟨rfl, fun alone => ?_, fun _ => rfl⟩
        exfalso
        apply many id
        intro sender member
        obtain ⟨place, located⟩ := List.mem_iff_getElem?.mp member
        obtain ⟨bound, -⟩ := List.getElem?_eq_some_iff.mp located
        obtain ⟨entry, inAttempt, -, -, name, -⟩ := account.each place (by rw [← account.count]; exact bound)
        rw [located] at name
        rw [Option.some.inj name]
        rcases List.mem_append.mp inAttempt with old | new
        · exact alone entry old
        · rw [List.mem_singleton.mp new]

end Verdicts

/-- If during each attempt at a piece that evidence is held against one peer alone has it and does
not choke us, a failed retry of it has one sender, whose host is banned once `on_piece` returns. -/
theorem retries_progress (sha1 : Bytes → Bytes) (kernel : Kernel) (t : TorrentFile) (owner : Nat → Nat → Nat)
    (sys : Sys) (within : ReachedWithin sha1 kernel t (Reserved owner) sys)
    (few : sys.session.peers.promoted < 2 ^ 32)
    (id : Nat) (block : Block) (rest : List PeerEvent) (piece : CompletedPiece) (after : PieceManager)
    (front : sys.phase = .dispatching (.piece id block :: rest))
    (filed : sys.session.pieces.onBlock sha1 block = .ok (⟨.pieceFailed, piece⟩, after))
    (held : sys.session.bans.evidence.find? piece.index ≠ none) :
    (∀ entry ∈ (attemptsOf piece.index sys.filed).current, entry.peerId = id) ∧
    ∃ delivery ∈ sys.deliveries, delivery.block = block ∧ delivery.conn.id = id ∧
      ∀ order, ∃ next, sys.session.onPiece sha1 kernel order id block = .ok next ∧
        delivery.conn.peer.host ∈ next.peers.banned := by
  have geometry := reached_geometry within.reached
  obtain ⟨record, exclusive⟩ := within_exclusive within
  have named := record.named few
  have queue : sys.flow.queue = .piece id block :: rest := by
    rw [Sys.flow, front]
    rfl
  have first : .piece id block ∈ sys.flow.queue := by
    rw [queue]
    exact List.mem_cons_self ..
  obtain ⟨hosts, judged, outcome, returns⟩ := @onPiece_failed sha1 kernel sys.session id block piece after filed
  obtain ⟨index, convicts, -⟩ := @failed_hosts sha1 kernel t id block piece sys.flow judged hosts rest geometry
    record.books named queue outcome
  have sole := exclusive few piece.index held
  have sender := sole.queued id block first index.symm
  have alone : ∀ entry ∈ (attemptsOf piece.index sys.filed).current, entry.peerId = id := by
    intro entry member
    rw [sender]
    exact sole.sent entry member
  refine ⟨alone, ?_⟩
  rw [index] at alone
  obtain ⟨host, known, listed⟩ := convicts alone
  obtain ⟨delivery, came, same, name, -, onFile⟩ := named.queued id block first
  rw [known] at onFile
  refine ⟨delivery, came, same, name, ?_⟩
  intro order
  obtain ⟨reqs, banned⟩ := ban_returns kernel judged (order host) host
  refine ⟨{ judged with
    peers := (judged.peers.ban host (order host)).1
    pieces := judged.pieces.release reqs }, ?_, ?_⟩
  · rw [returns, listed, banAll, banned]
    rfl
  · rw [← Option.some.inj onFile, ban_banned]
    exact Finset.mem_insert_self _ _

section Example

def reservedFor (peer : Nat) (s : Session) : Bool :=
  s.bans.evidence.keys.all (fun index => s.peers.conns.keys.all (fun id =>
    match s.peers.conns.find? id with
    | none => true
    | some c => decide (id = peer) || c.peerChoking || !c.hasPieces.get index))

theorem reservedFor_reserved {peer : Nat} {f : Flow} (passed : reservedFor peer f.session = true) :
    Reserved (fun _ _ => peer) f := by
  intro index held id c present unchoked has
  obtain ⟨evidence, found⟩ := Option.ne_none_iff_exists'.mp held
  have listed := (Table.find_keys f.session.bans.evidence index).mpr ⟨evidence, found⟩
  have others := List.all_eq_true.mp passed index listed
  have one := List.all_eq_true.mp others id ((Table.find_keys f.session.peers.conns id).mpr ⟨c, present⟩)
  rw [present] at one
  dsimp only at one
  rw [unchoked, has, Bool.or_false, Bool.not_true, Bool.or_false, decide_eq_true_eq] at one
  exact one

def reservedInput (sys : Sys) : Input → Bool
  | .fill _ => reservedFor 0 sys.session
  | _ => true

def soleAttempt : List Input :=
  [hears 1 5 [0, 0, 0, 1, 1], handOver] ++ roundEnd ++
    [hears 1 5 ([0, 0, 64, 9, 7, 0, 0, 0, 0, 0, 0, 0, 0] ++ List.replicate 16371 0)] ++ roundEnd ++
    [hears 1 5 (List.replicate 13 0 ++ [0, 0, 0, 10, 7, 0, 0, 0, 0, 0, 0, 64, 0, 5]), handOver]

theorem rehearsed_retry :
    (rehearse headDigest twoBlocks []).bind (fun sys =>
      (Transition.run (Transition.guarded (step headDigest wholeKernel) reservedInput) sys
        (meet ++ attempt 0 ++ conclude ++ soleAttempt)).map (outlook headDigest)) =
      some (some ⟨0, .pieceFailed, 0, [0], true, 2, ∅⟩) := by
  decide +kernel

end Example

/-- A retry from one peer fails, and the peer is banned. -/
theorem retries_progress_sole_sender :
    ∃ (sys : Sys) (block : Block) (piece : CompletedPiece) (after : PieceManager),
      ReachedWithin headDigest wholeKernel twoBlocks (Reserved (fun _ _ => 0)) sys ∧
      sys.session.pieces.onBlock headDigest block = .ok (⟨.pieceFailed, piece⟩, after) ∧
      sys.session.bans.evidence.find? piece.index ≠ none ∧
      ∃ delivery ∈ sys.deliveries, ∃ next,
        sys.session.onPiece headDigest wholeKernel (fun _ => []) 0 block = .ok next ∧
          delivery.conn.peer.host ∈ next.peers.banned := by
  obtain ⟨start, ran, later⟩ := Option.bind_eq_some_iff.mp rehearsed_retry
  obtain ⟨sys, moves, seen⟩ := Option.map_eq_some_iff.mp later
  have begins : ReachedWithin headDigest wholeKernel twoBlocks (Reserved (fun _ _ => 0)) start := by
    obtain ⟨first, begins, stays⟩ := rehearse_begins ⟨_, twoBlocks_accepted⟩ ran
    cases stays
    exact .start _ begins
  have within : ReachedWithin headDigest wholeKernel twoBlocks (Reserved (fun _ _ => 0)) sys := by
    refine Transition.ReachableWithin.guarded begins ?_ moves
    rintro state input passed env rfl
    exact reservedFor_reserved passed
  obtain ⟨block, rest, ⟨status, piece⟩, after, front, filed, failed, index, -, held, count, -⟩ := outlook_some seen
  dsimp only at failed index held count
  subst failed
  have few : sys.session.peers.promoted < 2 ^ 32 := by
    rw [count]
    decide
  have kept : sys.session.bans.evidence.find? piece.index ≠ none := by
    rw [index]
    exact Option.isSome_iff_ne_none.mp held
  obtain ⟨-, delivery, came, -, -, banned⟩ :=
    retries_progress headDigest wholeKernel twoBlocks _ sys within few 0 block rest piece after front filed kept
  exact ⟨sys, block, piece, after, within, filed, kept, delivery, came, banned (fun _ => [])⟩

/-- A retry that two peers mix their blocks into fails as well, and nobody is banned. -/
theorem retry_mixed_again :
    ∃ (sys : Sys) (block : Block) (rest : List PeerEvent) (piece : CompletedPiece) (after : PieceManager)
      (next : Session), Reached headDigest wholeKernel twoBlocks sys ∧ sys.session.peers.promoted = 2 ∧
      sys.phase = .dispatching (.piece 1 block :: rest) ∧
      sys.session.pieces.onBlock headDigest block = .ok (⟨.pieceFailed, piece⟩, after) ∧
      sys.session.bans.evidence.find? piece.index ≠ none ∧
      (attemptsOf piece.index sys.filed).current.map Filed.peerId = [0] ∧
      (∀ order, sys.session.onPiece headDigest wholeKernel order 1 block = .ok next) ∧
      next.peers.banned = ∅ := by
  obtain ⟨sys, ran, later⟩ := Option.bind_eq_some_iff.mp rehearsed_attempts
  obtain ⟨last, -, seen⟩ := Option.map_eq_some_iff.mp later
  have reached := rehearse_reached ⟨_, twoBlocks_accepted⟩ ran
  obtain ⟨block, rest, ⟨status, piece⟩, after, front, filed, failed, index, senders, held, count, banned⟩ :=
    outlook_some (Prod.mk.inj seen).1
  dsimp only at front failed index senders held count banned
  subst failed
  have record := reached_record reached
  have named : Named sys.flow := record.named (by rw [show sys.flow.session.peers.promoted = 2 from count]; decide)
  have queue : sys.flow.queue = .piece 1 block :: rest := by
    rw [Sys.flow, front]
    rfl
  obtain ⟨hosts, judged, outcome, returns⟩ :=
    @onPiece_failed headDigest wholeKernel sys.session 1 block piece after filed
  obtain ⟨same, -, clears⟩ := @failed_hosts headDigest wholeKernel twoBlocks 1 block piece sys.flow judged hosts rest
    (reached_geometry reached) record.books named queue outcome
  have current : (attemptsOf block.pieceIndex sys.filed).current.map Filed.peerId = [0] := by
    rw [← same, index]
    exact senders
  obtain ⟨entry, member, name⟩ : ∃ entry ∈ (attemptsOf block.pieceIndex sys.filed).current, entry.peerId = 0 := by
    have listed : 0 ∈ (attemptsOf block.pieceIndex sys.filed).current.map Filed.peerId := by
      rw [current]
      exact List.mem_singleton_self 0
    exact List.mem_map.mp listed
  have nobody := clears ⟨entry, member, by rw [name]; decide⟩
  refine ⟨sys, block, rest, piece, after, judged, reached, count, front, filed,
    ?_, by rw [index]; exact senders, ?_, ?_⟩
  · rw [index]
    exact Option.isSome_iff_ne_none.mp held
  · intro order
    rw [returns, nobody]
    rfl
  · rw [outcome.same_banned]
    exact banned

end TorrentPeer.Session
