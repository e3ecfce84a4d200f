import TorrentPeer.Runtime.Tracker
import TorrentPeer.Lib.Transition

/-! Every run of `TrackerManager`: ticks, a finished download and a shutdown in any order. A
tick is cut into moves of single sessions, so that an invariant is checked move by move. -/

namespace TorrentPeer.TrackerManager

open TrackerSession BigEndian Transition

inductive Op where
  | tick (revents : List Nat) (envs : Nat → TrackerEnv) (stats : AnnounceParams) (now : Time)
  | onDownloadComplete (now : Time)
  | beginShutdown (now : Time)

def perform (m : TrackerManager) : Op → Option TrackerManager
  | .tick revents envs stats now =>
    match m.tick revents envs stats now with
    | .ok (next, _) => some next
    | .error _ => none
  | .onDownloadComplete now => some (m.onDownloadComplete now)
  | .beginShutdown now => some (m.beginShutdown now)

def Created (m : TrackerManager) : Prop :=
  ∃ torrent peerId listenPort key, m = create torrent peerId listenPort key

def Driven : TrackerManager → Prop := Reachable perform Created

/-- Everything one pass of a tick can do to a session. -/
inductive Move (m : TrackerManager) : TrackerSession → TrackerSession → Prop
  | stays (t : TrackerSession) : Move m t t
  | accepts (t : TrackerSession) (connectionId : Nat) (now : Time) (waiting : t.state = .connecting)
      (small : connectionId < 2 ^ 64) :
      Move m t ({ t with
        connectionId := connectionId
        connectedAt := now
        retries := 0
        state := .connected }.note (.connectAccepted connectionId now))
  | acknowledges (t : TrackerSession) (now : Time) (interval leechers seeders : Nat)
      (waiting : t.state = .announcing) : Move m t (t.acknowledge now interval leechers seeders)
  | looksUp (t : TrackerSession) (off : t.state = .disconnected) :
      Move m t { t with lookup := true, state := .resolving }
  | connects (t : TrackerSession) (lookup : Bool) (fd txn : Nat) (now : Time)
      (off : t.state = .disconnected ∨ t.state = .resolving) :
      Move m t ({ t with
        lookup := lookup
        sock := some fd
        transactionId := txn
        state := .connecting
        connectedAt := now
        nextAction := now + t.responseTimeout }.note (.connectSent now))
  | announces (t : TrackerSession) (txn : Nat) (packet : Bytes) (now : Time)
      (ready : t.state = .connected) (young : now - t.connectedAt < seconds 60)
      (carries : t.connectionId < 2 ^ 64 → readBe64 packet = t.connectionId) :
      Move m t ({ t with
        transactionId := txn
        inFlight := m.pendingEvent t
        state := .announcing
        nextAction := now + t.responseTimeout }.note (.announceSent (m.pendingEvent t) packet now))
  | backsOff (t : TrackerSession) (lookup : Bool) (sock : Option Nat) (txn : Nat) (event : TrackerEvent)
      (now : Time) (live : t.state ≠ .stopped ∧ t.state ≠ .idle) :
      Move m t ({ t with lookup := lookup, sock := sock, transactionId := txn, inFlight := event }.failBackoff now)
  | timesOut (t : TrackerSession) (now : Time) (waiting : t.state = .connecting ∨ t.state = .announcing) :
      Move m t (t.onTimeout now)
  | leaves (t : TrackerSession) (deadline : Time) (ready : t.state = .connected ∨ t.state = .idle) :
      Move m t { t with state := .disconnected, nextAction := deadline }

section Sessions

variable (m : TrackerManager) (env : TrackerEnv) (t : TrackerSession)

theorem recvConnect_cases (waiting : t.state = .connecting) :
    (t.recvConnect env).2 = t ∨ (t.recvConnect env).1 = true ∧ Move m t (t.recvConnect env).2 := by
  unfold recvConnect
  split
  · exact Or.inl rfl
  · dsimp only
    split
    · exact Or.inl rfl
    · split
      · exact Or.inl rfl
      · exact Or.inr ⟨rfl, Move.accepts t _ env.receivedAt waiting (readBe64_bound _)⟩
  · exact Or.inl rfl

theorem recvAnnounce_cases (now : Time) (datagrams : List Datagram) :
    (t.recvAnnounce now datagrams).2.1 = t ∨
      (t.recvAnnounce now datagrams).1 = true ∧ ∃ interval leechers seeders,
        (t.recvAnnounce now datagrams).2.1 = t.acknowledge now interval leechers seeders := by
  induction datagrams with
  | nil => exact Or.inl rfl
  | cons datagram rest ih =>
    cases datagram with
    | interrupted => exact ih
    | wouldBlock => exact Or.inl rfl
    | failed => exact Or.inl rfl
    | data bytes =>
      simp only [recvAnnounce]
      split
      · exact ih
      · exact Or.inl rfl
      · exact Or.inr ⟨rfl, _, _, _, rfl⟩

theorem settled_moves (ok : Bool) (next : TrackerSession) (now : Time) (live : t.state ≠ .stopped ∧ t.state ≠ .idle)
    (outcome : next = t ∨ ok = true ∧ Move m t next) :
    Move m t (if ok = false then next.failBackoff now else next) := by
  rcases outcome with same | ⟨success, moved⟩
  · rw [same]
    split
    · exact Move.backsOff t t.lookup t.sock t.transactionId t.inFlight now live
    · exact Move.stays t
  · rw [if_neg (by rw [success]; decide)]
    exact moved

theorem receive_moves (revents : Nat) : Move m t (receive env revents t).1 := by
  unfold receive
  split
  · exact Move.stays t
  · cases state : t.state with
    | connecting =>
      exact settled_moves m t _ _ _ (by rw [state]; decide) (recvConnect_cases m env t state)
    | announcing =>
      refine settled_moves m t _ _ _ (by rw [state]; decide) ?_
      rcases recvAnnounce_cases t env.receivedAt env.recv with same | ⟨success, interval, leechers, seeders, same⟩
      · exact Or.inl same
      · exact Or.inr ⟨success, same ▸ Move.acknowledges t _ interval leechers seeders state⟩
    | _ => exact Move.stays t

theorem sendConnect_moves (lookup : Bool) (fd : Nat) (off : t.state = .disconnected ∨ t.state = .resolving) :
    Move m t ({ t with lookup := lookup, sock := some fd }.sendConnect env) := by
  unfold sendConnect
  rw [if_neg (by simp)]
  dsimp only
  split
  · exact Move.backsOff t lookup none _ t.inFlight _ (by rcases off with off | off <;> rw [off] <;> decide)
  · exact Move.connects t lookup fd _ _ off

theorem sendAnnounce_moves (stats : AnnounceParams) {next : TrackerSession} (ready : t.state = .connected)
    (sent : m.sendAnnounce env stats t = .ok next) : Move m t next := by
  have live : t.state ≠ .stopped ∧ t.state ≠ .idle := by rw [ready]; decide
  unfold sendAnnounce at sent
  split at sent
  · cases sent
    exact Move.leaves t _ (Or.inl ready)
  · rename_i young
    obtain ⟨packet, built, sent⟩ := bind_ok sent
    split at sent
    · cases sent
      exact Move.backsOff t t.lookup none _ _ _ live
    · cases sent
      refine Move.announces t _ packet _ ready (Int.not_le.mp young) (fun small => ?_)
      unfold buildAnnounceRequest at built
      split at built
      · cases built
      · cases built
        simp only [List.append_assoc]
        exact readBe64_append _ small _

theorem advance_moves (stats : AnnounceParams) (now : Time) {next : TrackerSession}
    (advanced : m.advance env stats now t = .ok next) : Move m t next := by
  unfold advance at advanced
  split at advanced
  · rename_i off
    cases advanced
    split
    · cases open_ : t.sock with
      | none =>
        rw [sendConnect, if_pos open_]
        exact Move.looksUp t off
      | some fd =>
        have same : t = { t with lookup := t.lookup, sock := some fd } := by rw [← open_]
        have moved := sendConnect_moves m env t t.lookup fd (Or.inl off)
        rw [← same] at moved
        exact moved
    · exact Move.stays t
  · rename_i off
    have live : t.state ≠ .stopped ∧ t.state ≠ .idle := by rw [off]; decide
    split at advanced
    · cases advanced
      exact Move.stays t
    · cases advanced
      exact Move.backsOff t false t.sock t.transactionId t.inFlight _ live
    · split at advanced
      · cases advanced
        exact Move.backsOff t false t.sock t.transactionId t.inFlight _ live
      · rename_i fd opened
        cases advanced
        exact sendConnect_moves m env t false fd (Or.inr off)
  · rename_i waiting
    cases advanced
    split
    · exact Move.timesOut t now (Or.inl waiting)
    · exact Move.stays t
  · rename_i waiting
    cases advanced
    split
    · exact Move.timesOut t now (Or.inr waiting)
    · exact Move.stays t
  · rename_i ready
    exact sendAnnounce_moves m env t stats ready advanced
  · rename_i resting
    cases advanced
    split
    · exact Move.leaves t t.nextAction (Or.inr resting)
    · exact Move.stays t
  · cases advanced
    exact Move.stays t

end Sessions

section Ticks

variable {m next : TrackerManager} {envs : Nat → TrackerEnv} {stats : AnnounceParams} {now : Time}

theorem advanceAll_at (i : Nat) (trackers advanced : List TrackerSession)
    (passed : m.advanceAll envs stats now i trackers = .ok advanced) :
    trackers.length = advanced.length ∧ ∀ j (low : j < trackers.length) (high : j < advanced.length),
      m.advance (envs (i + j)) stats now trackers[j] = .ok advanced[j] := by
  induction trackers generalizing i advanced with
  | nil =>
    cases passed
    exact ⟨rfl, nofun⟩
  | cons t rest ih =>
    obtain ⟨first, one, passed⟩ := bind_ok passed
    obtain ⟨others, more, passed⟩ := bind_ok passed
    cases passed
    obtain ⟨length, each⟩ := ih (i + 1) others more
    refine ⟨congrArg (· + 1) length, fun j low high => ?_⟩
    cases j with
    | zero => exact one
    | succ j =>
      have shifted := each j (Nat.lt_of_succ_lt_succ low) (Nat.lt_of_succ_lt_succ high)
      rwa [Nat.add_assoc, Nat.add_comm 1 j] at shifted

/-- The two passes of a tick, session by session. -/
theorem tick_passes {revents : List Nat} {fresh : List Peer} (matched : revents.length = m.trackers.length)
    (ticked : m.tick revents envs stats now = .ok (next, fresh)) :
    m.trackers.length = next.trackers.length ∧
      ∀ i (low : i < m.trackers.length) (high : i < next.trackers.length),
        m.advance (envs i) stats now (receive (envs i) (revents.getD i 0) m.trackers[i]).1 =
        .ok next.trackers[i] := by
  unfold tick at ticked
  rw [if_neg (not_not.mpr matched)] at ticked
  obtain ⟨advanced, passed, ticked⟩ := bind_ok ticked
  cases ticked
  obtain ⟨length, each⟩ := advanceAll_at 0 _ advanced passed
  rw [List.length_map, List.length_mapIdx] at length
  refine ⟨length, fun i low high => ?_⟩
  have moved := each i (by simpa using low) high
  simpa using moved

theorem tick_setting {revents : List Nat} {fresh : List Peer}
    (ticked : m.tick revents envs stats now = .ok (next, fresh)) : next = { m with trackers := next.trackers } := by
  unfold tick at ticked
  split at ticked
  · cases ticked
    rfl
  · obtain ⟨advanced, passed, ticked⟩ := bind_ok ticked
    cases ticked
    rfl

theorem tick_moves {revents : List Nat} {fresh : List Peer}
    (ticked : m.tick revents envs stats now = .ok (next, fresh)) :
    next.downloadComplete = m.downloadComplete ∧ next.stopping = m.stopping ∧
      List.Forall₂ (fun t after => ∃ middle, Move m t middle ∧ Move m middle after) m.trackers next.trackers := by
  have setting := tick_setting ticked
  refine ⟨by rw [setting], by rw [setting], ?_⟩
  by_cases matched : revents.length = m.trackers.length
  · obtain ⟨length, each⟩ := tick_passes matched ticked
    apply List.forall₂_iff_get.mpr
    refine ⟨length, fun i low high => ⟨_, receive_moves m (envs i) m.trackers[i] (revents.getD i 0), ?_⟩⟩
    exact advance_moves m _ _ stats now (each i low high)
  · unfold tick at ticked
    rw [if_pos matched] at ticked
    cases ticked
    exact List.forall₂_same.mpr (fun t _ => ⟨t, Move.stays t, Move.stays t⟩)

theorem tick_origin {revents : List Nat} {fresh : List Peer}
    (ticked : m.tick revents envs stats now = .ok (next, fresh)) (t : TrackerSession) (member : t ∈ next.trackers) :
    ∃ old ∈ m.trackers, ∃ middle, Move m old middle ∧ Move m middle t := by
  obtain ⟨length, pairs⟩ := List.forall₂_iff_get.mp (tick_moves ticked).2.2
  obtain ⟨i, high, same⟩ := List.mem_iff_getElem.mp member
  have low : i < m.trackers.length := by omega
  rw [← same]
  exact ⟨m.trackers[i], List.getElem_mem low, pairs i low high⟩

end Ticks

theorem created_session {m : TrackerManager} (created : Created m) (t : TrackerSession) (member : t ∈ m.trackers) :
    ∃ address key, t = { address := address, key := key } := by
  obtain ⟨torrent, peerId, listenPort, key, same⟩ := created
  rw [same] at member
  obtain ⟨url, -, parsed⟩ := List.mem_filterMap.mp member
  split at parsed
  · cases parsed
    exact ⟨_, key, rfl⟩
  · cases parsed

section Rules

variable {good : Bool → Bool → TrackerSession → Prop}
  (moved : ∀ (m : TrackerManager) t next, good m.downloadComplete m.stopping t → Move m t next →
    good m.downloadComplete m.stopping next)
  (roused : ∀ complete stopping now t, good complete stopping t → good true stopping (rouse now t))
  (withdrawn : ∀ complete stopping now t, good complete stopping t → good complete true (withdraw now t))

include moved roused withdrawn

theorem perform_each {m next : TrackerManager} {op : Op}
    (holds : ∀ t ∈ m.trackers, good m.downloadComplete m.stopping t) (performed : m.perform op = some next) :
    ∀ t ∈ next.trackers, good next.downloadComplete next.stopping t := by
  cases op with
  | tick revents envs stats now =>
    simp only [perform] at performed
    split at performed
    · rename_i after fresh ticked
      cases performed
      obtain ⟨complete, stopping, -⟩ := tick_moves ticked
      intro t member
      obtain ⟨old, present, middle, first, second⟩ := tick_origin ticked t member
      rw [complete, stopping]
      exact moved m middle t (moved m old middle (holds old present) first) second
    · cases performed
  | onDownloadComplete now =>
    cases performed
    intro t member
    obtain ⟨old, present, same⟩ := List.mem_map.mp member
    rw [← same]
    exact roused _ _ now old (holds old present)
  | beginShutdown now =>
    cases performed
    intro t member
    obtain ⟨old, present, same⟩ := List.mem_map.mp member
    rw [← same]
    exact withdrawn _ _ now old (holds old present)

theorem driven_each (fresh : ∀ address key, good false false { address := address, key := key })
    {m : TrackerManager} (driven : Driven m) : ∀ t ∈ m.trackers, good m.downloadComplete m.stopping t := by
  induction driven with
  | start m begins =>
    intro t member
    obtain ⟨address, key, same⟩ := created_session begins t member
    rw [same]
    obtain ⟨torrent, peerId, listenPort, _, created⟩ := begins
    rw [created]
    exact fresh address key
  | next m after op _ performed ih => exact perform_each moved roused withdrawn ih performed

end Rules

end TorrentPeer.TrackerManager
