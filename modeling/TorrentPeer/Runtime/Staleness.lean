import Mathlib.Data.List.DropRight
import TorrentPeer.Runtime.Descent
import TorrentPeer.Runtime.Outstanding

/-! The times at which requests are sent and given up. The clock readings of a run are kept in the
order they are taken, so that a clock that never goes back is a condition on that list. -/

namespace TorrentPeer.Session

open PeerManager PieceManager Transition Torrent

def sentTimes (c : PeerConnection) : List Time := c.pending.map PendingRequest.sentAt

section Readings

/-- The readings of `send_request` for one healthy peer; the loop counts its rounds down. -/
def fillOneStamps (env : FillEnv) (s : Session) (id : Nat) : List Time :=
  (fillOneSends env s id).mapIdx (fun i _ => env.stamp id (kPipelineDepth - 1 - i))

def fillSnubbedStamps (env : FillEnv) (s : Session) (id : Nat) : List Time :=
  (fillSnubbedSends env s id).map (fun _ => env.snubbedStamp id)

def passStamps (pass : Session → Nat → Session) (stamps : Session → Nat → List Time) : List Nat → Session → List Time
  | [], _ => []
  | id :: ids, s => stamps s id ++ passStamps pass stamps ids (pass s id)

def fillStamps (env : FillEnv) (s : Session) : List Time :=
  let filled := (s.peers.conns.arrange env.order).foldl (fillOne env) s
  passStamps (fillOne env) (fillOneStamps env) (s.peers.conns.arrange env.order) s ++
    passStamps (fillSnubbed env) (fillSnubbedStamps env) (filled.peers.conns.arrange env.snubbedOrder) filled

/-- The readings of the release pass and of `send_request` in one step, in order. -/
def readings (sys : Sys) : Input → List Time
  | .settle _ _ now _ => [now]
  | .fill env => fillStamps env sys.session
  | _ => []

structure Timed where
  sys : Sys
  clock : List Time

def timeStep (sha1 : Bytes → Bytes) (kernel : Kernel) (timed : Timed) (input : Input) : Option Timed :=
  (step sha1 kernel timed.sys input).map (fun next => ⟨next, timed.clock ++ readings timed.sys input⟩)

def ReachedTimed (sha1 : Bytes → Bytes) (kernel : Kernel) (t : TorrentFile) : Timed → Prop :=
  Reachable (timeStep sha1 kernel) (fun timed => Begins sha1 kernel t timed.sys ∧ timed.clock = [])

end Readings

section Filling

/-- Some passes add requests with the times `stamps` to the pending lists, and nothing else. -/
def Adds (s : Session) (stamps : List Time) (next : Session) : Prop :=
  ∀ id c, next.peers.conns.find? id = some c →
    ∃ old mine, s.peers.conns.find? id = some old ∧ sentTimes c = sentTimes old ++ mine ∧ mine.Sublist stamps

theorem Adds.none {s next : Session} (same : next.peers.conns = s.peers.conns) (stamps : List Time) :
    Adds s stamps next := by
  intro id c found
  rw [same] at found
  exact ⟨c, [], found, (List.append_nil _).symm, List.nil_sublist _⟩

theorem Adds.trans {s middle last : Session} {first second : List Time} (begun : Adds s first middle)
    (more : Adds middle second last) : Adds s (first ++ second) last := by
  intro id c found
  obtain ⟨between, late, present, later, among⟩ := more id c found
  obtain ⟨old, early, before, earlier, inside⟩ := begun id between present
  refine ⟨old, early ++ late, before, ?_, inside.append among⟩
  rw [later, earlier, List.append_assoc]

theorem sendRequest_adds (s : Session) (id : Nat) (req : BlockRequest) (now : Time) (pieces : PieceManager) :
    Adds s [now] { s with pieces := pieces, peers := s.peers.sendRequest id req now } := by
  intro other c found
  obtain ⟨old, present, same | ⟨-, same⟩⟩ := find_modify_some found
  · rw [same]
    exact ⟨old, [], present, (List.append_nil _).symm, List.nil_sublist _⟩
  · rw [same]
    refine ⟨old, [now], present, ?_, List.Sublist.refl _⟩
    rw [sentTimes, PeerConnection.enqueue, List.map_append]
    rfl

theorem askPeer_adds (s : Session) (id : Nat) (c : PeerConnection) (choice : Choice) (now : Time) :
    (∃ next, s.askPeer id c choice now = (false, next) ∧ askSends s id c choice = [] ∧ Adds s [] next) ∨
      ∃ sending next, s.askPeer id c choice now = (true, next) ∧ askSends s id c choice = [sending] ∧
        Adds s [now] next := by
  unfold askPeer askSends
  cases picked : s.pieces.pickBlock c.hasPieces s.peers.pieceFrequency id choice with
  | mk answer pieces =>
    cases answer with
    | none => exact Or.inl ⟨_, rfl, rfl, .none rfl _⟩
    | some req => exact Or.inr ⟨_, _, rfl, rfl, sendRequest_adds s id req now pieces⟩

theorem fillPeer_adds (pick : Nat → Choice) (stamp : Nat → Time) (id fuel : Nat) (s : Session) :
    Adds s ((fillPeerSends pick stamp id fuel s).mapIdx (fun i _ => stamp (fuel - 1 - i)))
      (fillPeer pick stamp id fuel s) := by
  induction fuel generalizing s with
  | zero => exact .none rfl _
  | succ fuel ih =>
    rw [fillPeer, fillPeerSends]
    cases found : s.peers.conns.find? id with
    | none => exact .none rfl _
    | some c =>
      dsimp only
      by_cases slot : c.pending.length < kPipelineDepth
      · rw [if_pos slot, if_pos slot]
        rcases askPeer_adds s id c (pick fuel) (stamp fuel) with
          ⟨next, asked, nothing, adds⟩ | ⟨sending, next, asked, one, adds⟩
        · rw [asked, nothing]
          exact adds
        · rw [asked, one, List.singleton_append, List.mapIdx_cons]
          have later : ∀ i, fuel + 1 - 1 - (i + 1) = fuel - 1 - i := by
            intro i
            omega
          simp only [later]
          exact adds.trans (ih next)
      · rw [if_neg slot, if_neg slot]
        exact .none rfl _

theorem fillOne_adds (env : FillEnv) (s : Session) (id : Nat) :
    Adds s (fillOneStamps env s id) (fillOne env s id) := by
  unfold fillOneStamps fillOne fillOneSends
  cases found : s.peers.conns.find? id with
  | none => exact .none rfl _
  | some c =>
    dsimp only
    by_cases busy : c.peerChoking = true ∨ c.snubbed = true
    · rw [if_pos busy, if_pos busy]
      exact .none rfl _
    · rw [if_neg busy, if_neg busy]
      exact fillPeer_adds (env.pick id) (env.stamp id) id kPipelineDepth s

theorem fillSnubbed_adds (env : FillEnv) (s : Session) (id : Nat) :
    Adds s (fillSnubbedStamps env s id) (fillSnubbed env s id) := by
  unfold fillSnubbedStamps fillSnubbed fillSnubbedSends
  cases found : s.peers.conns.find? id with
  | none => exact .none rfl _
  | some c =>
    dsimp only
    by_cases busy : c.peerChoking = true ∨ c.snubbed = false ∨ c.pending ≠ []
    · rw [if_pos busy, if_pos busy]
      exact .none rfl _
    · rw [if_neg busy, if_neg busy]
      rcases askPeer_adds s id c (env.snubbedPick id) (env.snubbedStamp id) with
        ⟨next, asked, nothing, adds⟩ | ⟨sending, next, asked, one, adds⟩
      · rw [asked, nothing]
        exact adds
      · rw [asked, one]
        exact adds

theorem pass_adds (pass : Session → Nat → Session) (stamps : Session → Nat → List Time)
    (each : ∀ s id, Adds s (stamps s id) (pass s id)) (ids : List Nat) (s : Session) :
    Adds s (passStamps pass stamps ids s) (ids.foldl pass s) := by
  induction ids generalizing s with
  | nil => exact .none rfl _
  | cons id ids ih => exact (each s id).trans (ih (pass s id))

theorem fillAll_adds (env : FillEnv) (s : Session) : Adds s (fillStamps env s) (s.fillAll env) :=
  (pass_adds _ _ (fillOne_adds env) _ s).trans (pass_adds _ _ (fillSnubbed_adds env) _ _)

end Filling

section Release

theorem takeStale_exact (pending : List PendingRequest) (cutoff : Time)
    (ordered : pending.Pairwise (fun first second => first.sentAt ≤ second.sentAt)) :
    takeStale pending cutoff =
      ((pending.filter (fun p => decide (p.sentAt < cutoff))).map PendingRequest.req,
        pending.filter (fun p => decide (cutoff ≤ p.sentAt))) := by
  induction pending with
  | nil => rfl
  | cons p rest ih =>
    rw [List.pairwise_cons] at ordered
    by_cases old : p.sentAt < cutoff
    · have stale := ih ordered.2
      rw [takeStale, Prod.mk.injEq] at stale
      rw [takeStale, List.takeWhile_cons_of_pos (by simpa using old), List.dropWhile_cons_of_pos (by simpa using old),
        List.filter_cons_of_pos (by simpa using old), List.filter_cons_of_neg (by simpa using old), List.map_cons,
        List.map_cons, stale.1, stale.2]
    · have recent : ∀ q ∈ p :: rest, cutoff ≤ q.sentAt := by
        intro q member
        rcases List.mem_cons.mp member with same | later
        · rw [same]
          exact Int.not_lt.mp old
        · exact Int.le_trans (Int.not_lt.mp old) (ordered.1 q later)
      have none_old : (p :: rest).filter (fun p => decide (p.sentAt < cutoff)) = [] := by
        rw [List.filter_eq_nil_iff]
        intro q member
        simpa using recent q member
      have all_recent : (p :: rest).filter (fun p => decide (cutoff ≤ p.sentAt)) = p :: rest := by
        rw [List.filter_eq_self]
        intro q member
        simpa using recent q member
      rw [none_old, all_recent, takeStale, List.takeWhile_cons_of_neg (by simpa using Int.not_lt.mp old),
        List.dropWhile_cons_of_neg (by simpa using Int.not_lt.mp old)]

def Ordered (c : PeerConnection) : Prop :=
  c.pending.Pairwise (fun first second => first.sentAt ≤ second.sentAt)

theorem takeStale_none {pending : List PendingRequest} {cutoff : Time} (nothing : (takeStale pending cutoff).1 = []) :
    (takeStale pending cutoff).2 = pending := by
  have split := List.takeWhile_append_dropWhile (p := fun p : PendingRequest => decide (p.sentAt < cutoff))
    (l := pending)
  rw [takeStale, List.map_eq_nil_iff] at nothing
  rw [nothing, List.nil_append] at split
  exact split

theorem expirePeer_pending (cutoff : Time) (s : Session) (id other : Nat) (c : PeerConnection)
    (found : (expirePeer cutoff s id).peers.conns.find? other = some c) :
    ∃ old, s.peers.conns.find? other = some old ∧
      c.pending = if other = id then (takeStale old.pending cutoff).2 else old.pending := by
  unfold expirePeer at found
  cases located : s.peers.conns.find? id with
  | none =>
    rw [located] at found
    refine ⟨c, found, ?_⟩
    rw [if_neg]
    intro here
    rw [here, located] at found
    cases found
  | some d =>
    rw [located] at found
    dsimp only at found
    by_cases nothing : (takeStale d.pending cutoff).1 = []
    · rw [if_pos nothing] at found
      refine ⟨c, found, ?_⟩
      by_cases here : other = id
      · rw [here, located] at found
        cases found
        rw [if_pos here, takeStale_none nothing]
      · rw [if_neg here]
    · rw [if_neg nothing] at found
      dsimp only at found
      rw [Table.find_modify] at found
      by_cases here : other = id
      · rw [if_pos here, here, located] at found
        cases found
        refine ⟨d, by rw [here, located], ?_⟩
        rw [if_pos here]
      · rw [if_neg here] at found
        exact ⟨c, found, by rw [if_neg here]⟩

theorem expireAll_pending (cutoff : Time) (ids : List Nat) (s : Session) (other : Nat) (c : PeerConnection)
    (found : (expireAll cutoff s ids).peers.conns.find? other = some c) :
    ∃ old, s.peers.conns.find? other = some old ∧
      c.pending = if other ∈ ids then (takeStale old.pending cutoff).2 else old.pending := by
  induction ids generalizing s with
  | nil => exact ⟨c, found, rfl⟩
  | cons id ids ih =>
    obtain ⟨middle, present, later⟩ := ih (expirePeer cutoff s id) found
    obtain ⟨old, before, first⟩ := expirePeer_pending cutoff s id other middle present
    refine ⟨old, before, ?_⟩
    rw [later, first]
    by_cases here : other = id
    · rw [if_pos here, if_pos (List.mem_cons.mpr (Or.inl here))]
      by_cases again : other ∈ ids
      · rw [if_pos again]
        exact List.dropWhile_idempotent _ _
      · rw [if_neg again]
    · rw [if_neg here]
      by_cases again : other ∈ ids
      · rw [if_pos again, if_pos (List.mem_cons.mpr (Or.inr again))]
      · rw [if_neg again, if_neg]
        exact fun member => (List.mem_cons.mp member).elim here again

theorem settleRound_recent (s : Session) (env : Env) (fresh : List Peer) (now : Time) (order : List Nat)
    (ordered : ∀ id c, s.peers.conns.find? id = some c → Ordered c) (id : Nat) (c : PeerConnection)
    (found : (s.settleRound env fresh now order).peers.conns.find? id = some c) (p : PendingRequest)
    (member : p ∈ c.pending) : now - kRequestTimeout ≤ p.sentAt := by
  have unmarked : ∀ r : Session, r.noteCompletion.peers = r.peers := by
    intro r
    unfold noteCompletion
    split <;> rfl
  have joined : (s.addFresh env fresh).peers.conns = s.peers.conns := by
    unfold addFresh
    split
    · rfl
    · exact (addPeers_apart env s.peers fresh).conns
  rw [settleRound, unmarked] at found
  obtain ⟨old, present, left⟩ := expireAll_pending _ _ _ id c found
  rw [if_pos ((Table.arrange_member _ _ _).mpr ⟨old, present⟩)] at left
  rw [joined] at present
  rw [left, takeStale_exact old.pending _ (ordered id old present)] at member
  exact of_decide_eq_true (List.mem_filter.mp member).2

end Release

theorem settle_next {sha1 : Bytes → Bytes} {kernel : Kernel} {sys next : Sys} {env : Env} {fresh : List Peer}
    {now : Time} {order : List Nat} (moves : step sha1 kernel sys (.settle env fresh now order) = some next) :
    next.session = sys.session.settleRound env fresh now order := by
  obtain ⟨session, phase, deliveries, filed⟩ := sys
  cases phase with
  | polling => cases moves
  | filling => cases moves
  | dispatching queue =>
    cases queue with
    | nil =>
      cases moves
      rfl
    | cons event rest => cases moves

section Runs

variable {sha1 : Bytes → Bytes} {kernel : Kernel} {t : TorrentFile}

theorem ReachedTimed.forget {timed : Timed} (reached : ReachedTimed sha1 kernel t timed) :
    Reached sha1 kernel t timed.sys := by
  apply Reachable.forget Timed.sys (fun timed begins => begins.1) _ reached
  intro timed after input moves
  obtain ⟨next, moved, same⟩ := Option.map_eq_some_iff.mp moves
  rw [← same]
  exact moved

/-- The times of the pending requests are readings of the clock, in the order they were taken. -/
def Stamped (timed : Timed) : Prop :=
  ∀ id c, timed.sys.session.peers.conns.find? id = some c → (sentTimes c).Sublist timed.clock

theorem Descends.sentTimes {conns : Table Nat PeerConnection} {id : Nat} {c : PeerConnection} {clock : List Time}
    (descends : Descends conns id c)
    (holds : ∀ old, conns.find? id = some old → (Session.sentTimes old).Sublist clock) :
    (Session.sentTimes c).Sublist clock := by
  refine descends.preserves ?_ ?_ holds
  · intro pm sock peer now answers
    rw [Session.sentTimes, newcomer_pending]
    exact List.nil_sublist _
  · intro before after inside alters
    exact (alters.pending.map _).trans inside

theorem reached_stamped {timed : Timed} (reached : ReachedTimed sha1 kernel t timed) : Stamped timed := by
  induction reached with
  | start timed begins =>
    intro id c found
    rw [(begins_fresh begins.1).conns] at found
    cases found
  | next timed after input before moves stamped =>
    have earlier : Reached sha1 kernel t timed.sys := ReachedTimed.forget before
    have geometry := reached_geometry earlier
    have custody := reached_custody earlier
    obtain ⟨next, moved, same⟩ := Option.map_eq_some_iff.mp moves
    rw [← same]
    intro id c found
    dsimp only at found
    rcases step_cases sha1 kernel timed.sys next input moved with quiets | ⟨⟨env, isFill, -⟩, -, -⟩
    · have descends := (quiets.descend geometry custody).2 id c found
      exact (descends.sentTimes (stamped id)).trans (List.sublist_append_left _ _)
    · rw [isFill] at moved ⊢
      rw [fill_moves moved] at found
      obtain ⟨old, mine, present, times, among⟩ := fillAll_adds env timed.sys.session id c found
      rw [times]
      exact (stamped id old present).append among

end Runs

section Example

def rehearseTimed (sha1 : Bytes → Bytes) (t : TorrentFile) (inputs : List Input) : Option Timed :=
  match create sha1 wholeKernel t (List.replicate 20 7) (some 3) [] [] quietEnv ⟨fun _ => [], 0, []⟩ with
  | .error _ => none
  | .ok s => Transition.run (timeStep sha1 wholeKernel) ⟨⟨s, .polling, [], []⟩, []⟩ inputs

theorem rehearseTimed_reached {sha1 : Bytes → Bytes} {t : TorrentFile} {inputs : List Input} {timed : Timed}
    (accepted : ∃ data, parseTorrent sha1 data = .ok t) (ran : rehearseTimed sha1 t inputs = some timed) :
    ReachedTimed sha1 wholeKernel t timed := by
  unfold rehearseTimed at ran
  split at ran
  · cases ran
  · rename_i s created
    exact Reachable.run (.start _ ⟨created_begins accepted created, rfl⟩) ran

/-- A peer is asked for the first piece at time 0, tells that it has the second and is asked for it at
time 5; then another round of polling starts. -/
def askingTwice : List Input :=
  welcome fourPieces (ascii "h") ++
    [arrives 1 (ascii "h") (Wire.Message.bytes (.have_ 1)), .settle quietEnv [] 5 [],
      .fill ⟨[], fun _ _ => ⟨[], 0⟩, fun _ _ => 5, [], fun _ => ⟨[], 0⟩, fun _ => 5⟩,
      .poll [] (fun _ => 0) quietEnv]

end Example

/-- When the clock never goes back, the requests to each peer are in the order of their times in every
state of every run, so `take_stale` takes exactly the old ones whatever the limit; and whenever the release
pass has run, nothing older than `kRequestTimeout` is pending at anybody. -/
theorem stale_requests_exact (sha1 : Bytes → Bytes) (kernel : Kernel) (t : TorrentFile) (timed : Timed)
    (reached : ReachedTimed sha1 kernel t timed) (steady : timed.clock.Pairwise (· ≤ ·)) :
    (∀ id c, timed.sys.session.peers.conns.find? id = some c →
      c.pending.Pairwise (fun first second => first.sentAt ≤ second.sentAt) ∧
      ∀ cutoff, takeStale c.pending cutoff =
        ((c.pending.filter (fun p => decide (p.sentAt < cutoff))).map PendingRequest.req,
          c.pending.filter (fun p => decide (cutoff ≤ p.sentAt)))) ∧
    ∀ env fresh now order next, step sha1 kernel timed.sys (.settle env fresh now order) = some next →
      ∀ id c, next.session.peers.conns.find? id = some c → ∀ p ∈ c.pending, now - kRequestTimeout ≤ p.sentAt := by
  have ordered : ∀ id c, timed.sys.session.peers.conns.find? id = some c → Ordered c := by
    intro id c found
    have times := List.Pairwise.sublist (reached_stamped reached id c found) steady
    exact List.pairwise_map.mp times
  constructor
  · intro id c found
    exact ⟨ordered id c found, fun cutoff => takeStale_exact c.pending cutoff (ordered id c found)⟩
  · intro env fresh now order next moves id c found p member
    rw [settle_next moves] at found
    exact settleRound_recent timed.sys.session env fresh now order ordered id c found p member

/-- Of two requests to a peer the release pass takes back the older one. -/
theorem stale_requests_exact_two_requests :
    ∃ timed c next after, ReachedTimed spotDigest wholeKernel fourPieces timed ∧
      timed.sys.session.peers.conns.find? 0 = some c ∧ c.pending = [⟨⟨0, 0, 1⟩, 0⟩, ⟨⟨1, 0, 1⟩, 5⟩] ∧
      takeStale c.pending 3 = ([⟨0, 0, 1⟩], [⟨⟨1, 0, 1⟩, 5⟩]) ∧
      step spotDigest wholeKernel timed.sys (.settle quietEnv [] (kRequestTimeout + 3) []) = some next ∧
      next.session.peers.conns.find? 0 = some after ∧ after.pending = [⟨⟨1, 0, 1⟩, 5⟩] ∧
      ∀ p ∈ after.pending, kRequestTimeout + 3 - kRequestTimeout ≤ p.sentAt := by
  have seen : ((rehearseTimed spotDigest fourPieces askingTwice).bind (fun timed =>
      (timed.sys.session.peers.conns.find? 0).bind (fun c =>
        (step spotDigest wholeKernel timed.sys (.settle quietEnv [] (kRequestTimeout + 3) [])).bind (fun next =>
          (next.session.peers.conns.find? 0).map (fun after => (timed.clock, c.pending, after.pending)))))) =
      some ([0, 0, 0, 0, 5, 5], [⟨⟨0, 0, 1⟩, 0⟩, ⟨⟨1, 0, 1⟩, 5⟩], [⟨⟨1, 0, 1⟩, 5⟩]) := by
    decide +kernel
  obtain ⟨timed, ran, seen⟩ := Option.bind_eq_some_iff.mp seen
  obtain ⟨c, found, seen⟩ := Option.bind_eq_some_iff.mp seen
  obtain ⟨next, moves, seen⟩ := Option.bind_eq_some_iff.mp seen
  obtain ⟨after, present, shown⟩ := Option.map_eq_some_iff.mp seen
  simp only [Prod.mk.injEq] at shown
  obtain ⟨clock, pending, left⟩ := shown
  have reached := rehearseTimed_reached ⟨_, fourPieces_accepted⟩ ran
  have steady : timed.clock.Pairwise (· ≤ ·) := by
    rw [clock]
    decide
  obtain ⟨taken, recent⟩ := stale_requests_exact spotDigest wholeKernel fourPieces timed reached steady
  have old := (taken 0 c found).2 3
  rw [pending] at old
  refine ⟨timed, c, next, after, reached, found, pending, ?_, moves, present, left,
    recent _ _ _ _ next moves 0 after present⟩
  rw [pending, old]
  decide

end TorrentPeer.Session
