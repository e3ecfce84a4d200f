import TorrentPeer.Runtime.Announces
import TorrentPeer.Runtime.Sleep

/-! `shutdown_session` against its trackers: a session is done only once its tracker does not count us any more, and
four ticks in which the tracker answers are enough for that, whatever the other trackers do. -/

namespace TorrentPeer.TrackerManager

open TrackerSession Transition

def Parted (t : TrackerSession) : Prop :=
  acks t.history = [] ∨ (acks t.history).getLast? = some .eventStopped

/-- A session of a manager that is shutting down. -/
structure Leaving (t : TrackerSession) : Prop where
  flying : t.state = .announcing → t.inFlight = .eventStopped
  awake : t.state ≠ .idle

def distance (t : TrackerSession) : Nat :=
  match t.state with
  | .stopped => 0
  | .announcing => 1
  | .connecting => 2
  | .resolving => 3
  | .disconnected => if t.sock = none then 4 else 3
  | .connected => 4
  | .idle => 5

/-- A datagram that the loop of `recv_announce` reads and goes on. -/
def Noise (txn : Nat) : Datagram → Prop
  | .interrupted => True
  | .data bytes => parseAnnounceReply (bytes.take 65536) txn = .ignore
  | _ => False

/-- What a session needs of one tick to get on: its packets go out, its timer has run down and its tracker has
answered. -/
structure Helped (t : TrackerSession) (revents : Nat) (env : TrackerEnv) (now : Time) : Prop where
  resolved : env.lookup = .resolved
  opens : ∃ fd, env.opens = some fd
  sends : env.send = true
  /-- A connect reply is followed up within a minute. -/
  swift : env.sentAt - env.receivedAt < seconds 60
  due : t.state = .disconnected → t.nextAction ≤ now
  accepts : t.state = .connecting → PeerManager.readable revents = true ∧
    ∃ bytes rest, env.recv = .data bytes :: rest ∧ 16 ≤ bytes.length ∧ BigEndian.readBe32 (bytes.take 16) = 0 ∧
      BigEndian.readBe32 ((bytes.take 16).drop 4) = t.transactionId
  acknowledges : t.state = .announcing → PeerManager.readable revents = true ∧
    ∃ noise bytes rest interval leechers seeders peers, env.recv = noise ++ .data bytes :: rest ∧
      (∀ datagram ∈ noise, Noise t.transactionId datagram) ∧
      parseAnnounceReply (bytes.take 65536) t.transactionId = .ok interval leechers seeders peers

def HelpedBy (m : TrackerManager) (i : Nat) : Op → Prop
  | .tick revents envs _ now => revents.length = m.trackers.length ∧
      ∀ t, m.trackers[i]? = some t → Helped t (revents.getD i 0) (envs i) now
  | _ => False

def Helps (i : Nat) : TrackerManager → List Op → Prop
  | _, [] => True
  | m, op :: ops => HelpedBy m i op ∧ ∀ next, m.perform op = some next → Helps i next ops

section Sessions

variable {m : TrackerManager} {t next : TrackerSession}

theorem Leaving.off (state : TrackerState) (here : t.state = state) (off : state ≠ .announcing ∧ state ≠ .idle) :
    Leaving t := by
  rw [← here] at off
  exact ⟨fun flying => absurd flying off.1, off.2⟩

theorem Leaving.move (stopping : m.stopping = true) (leaving : Leaving t) (move : Move m t next) : Leaving next := by
  cases move with
  | stays => exact leaving
  | acknowledges now interval leechers seeders waiting =>
    have last := leaving.flying waiting
    have ended : (t.acknowledge now interval leechers seeders).state = .stopped := by
      simp only [TrackerSession.acknowledge, TrackerSession.note, last, if_true]
    exact .off .stopped ended (by decide)
  | announces txn packet now ready young carries =>
    have last : m.pendingEvent t = .eventStopped := if_pos stopping
    exact ⟨fun _ => last, TrackerState.noConfusion⟩
  | accepts => exact .off .connected rfl (by decide)
  | looksUp => exact .off .resolving rfl (by decide)
  | connects => exact .off .connecting rfl (by decide)
  | backsOff => exact .off .disconnected rfl (by decide)
  | timesOut => exact .off .disconnected rfl (by decide)
  | leaves => exact .off .disconnected rfl (by decide)

theorem Leaving.withdraw (t : TrackerSession) (now : Time) : Leaving (withdraw now t) := by
  unfold TrackerManager.withdraw
  dsimp only
  split
  · exact .off .stopped rfl (by decide)
  · cases state : (t.note (.beginShutdown now)).state with
    | disconnected => exact .off .disconnected rfl (by decide)
    | resolving => exact .off .resolving state (by decide)
    | connecting => exact .off .connecting state (by decide)
    | connected => exact .off .connected state (by decide)
    | announcing => exact .off .connected rfl (by decide)
    | idle => exact .off .connected rfl (by decide)
    | stopped => exact .off .stopped state (by decide)

theorem rouse_state (now : Time) (t : TrackerSession) :
    (rouse now t).state = t.state ∧ (rouse now t).inFlight = t.inFlight := by
  unfold rouse
  dsimp only
  split
  · exact ⟨rfl, rfl⟩
  · exact ⟨rfl, rfl⟩

theorem driven_leaving (driven : Driven m) (stopping : m.stopping = true) : ∀ t ∈ m.trackers, Leaving t := by
  have each := @driven_each (fun _ stopping t => stopping = true → Leaving t)
    (fun m _ _ holds move stopping => (holds stopping).move stopping move)
    (fun _ _ now t holds stopping => by
      obtain ⟨state, flight⟩ := rouse_state now t
      have leaving := holds stopping
      refine ⟨?_, ?_⟩
      · rw [state, flight]
        exact leaving.flying
      · rw [state]
        exact leaving.awake)
    (fun _ _ now t _ _ => Leaving.withdraw t now)
    (fun _ _ stopping => by cases stopping) m driven
  exact fun t member => each t member stopping

end Sessions

section Parting

variable {complete stopping : Bool} {t next : TrackerSession}

theorem Lawful.parted (lawful : Lawful complete stopping t) (unknown : t.reported = .reportedNothing) : Parted t := by
  obtain ⟨acked, replayed, agrees⟩ := lawful
  have spoken := (replay_told replayed).spoken
  by_cases ended : acked = .stopped
  · rw [ended] at spoken
    obtain ⟨before, -, shape⟩ := spoken
    right
    rw [shape, List.getLast?_append_of_ne_nil _ (by simp)]
    rfl
  · left
    have nothing := agrees.reported ended
    rw [unknown] at nothing
    rw [nothing] at spoken
    exact spoken

theorem Parted.move {m : TrackerManager} (parted : t.state = .stopped → Parted t) (move : Move m t next)
    (ended : next.state = .stopped) : Parted next := by
  by_cases before : t.state = .stopped
  · rw [move_stopped move before]
    exact parted before
  · cases move with
    | stays => exact absurd ended before
    | acknowledges now interval leechers seeders waiting =>
      unfold TrackerSession.acknowledge at ended ⊢
      dsimp only [TrackerSession.note] at ended ⊢
      split at ended
      · rename_i last
        rw [if_pos last]
        right
        rw [acks_note, last]
        exact List.getLast?_concat
      · cases ended
    | accepts => cases ended
    | looksUp => cases ended
    | connects => cases ended
    | announces => cases ended
    | backsOff => cases ended
    | timesOut => cases ended
    | leaves => cases ended

theorem Parted.noted (parted : Parted t) (deed : Deed) (silent : acks [deed] = [])
    (same : next.history = t.history ++ [deed]) : Parted next := by
  rw [Parted, same, acks_note, silent, List.append_nil]
  exact parted

theorem rouse_history (now : Time) (t : TrackerSession) :
    (rouse now t).history = t.history ++ [.downloadComplete now] := by
  unfold rouse
  dsimp only
  split
  · rfl
  · rfl

theorem withdraw_shape (now : Time) (t : TrackerSession) :
    (withdraw now t).history = t.history ++ [.beginShutdown now] ∧
      ((withdraw now t).state = .stopped → t.reported = .reportedNothing ∨ t.state = .stopped) := by
  unfold withdraw
  dsimp only
  split
  · rename_i unknown
    exact ⟨rfl, fun _ => Or.inl unknown⟩
  · split
    · rename_i off
      refine ⟨rfl, fun ended => ?_⟩
      rw [off] at ended
      cases ended
    · refine ⟨rfl, fun ended => ?_⟩
      cases ended
    · refine ⟨rfl, fun ended => ?_⟩
      cases ended
    · exact ⟨rfl, Or.inr⟩

theorem driven_parted {m : TrackerManager} (driven : Driven m) : ∀ t ∈ m.trackers, t.state = .stopped → Parted t := by
  have each := @driven_each (fun complete stopping t => Lawful complete stopping t ∧ (t.state = .stopped → Parted t))
    (fun m t next holds move => ⟨holds.1.move move, Parted.move holds.2 move⟩)
    (fun _ _ now t holds => by
      refine ⟨holds.1.rouse now, fun ended => ?_⟩
      rw [(rouse_state now t).1] at ended
      exact (holds.2 ended).noted (.downloadComplete now) rfl (rouse_history now t))
    (fun _ _ now t holds => by
      obtain ⟨history, stopped⟩ := withdraw_shape now t
      refine ⟨holds.1.withdraw now, fun ended => ?_⟩
      have before : Parted t := (stopped ended).elim holds.1.parted holds.2
      exact before.noted (.beginShutdown now) rfl history)
    (fun _ _ => by
      refine ⟨⟨.nothing, rfl, ?_⟩, fun ended => ?_⟩
      · constructor
        · intro ended
          cases ended
        · intro _
          rfl
        · intro stops
          cases stops
        · intro flying
          cases flying
      · cases ended) m driven
  exact fun t member => (each t member).2

end Parting

section Ticks

variable {m next : TrackerManager} {t : TrackerSession} {env : TrackerEnv} {revents : Nat} {stats : AnnounceParams}
  {now : Time}

theorem receive_quiet (quiet : t.state ≠ .connecting ∧ t.state ≠ .announcing) : receive env revents t = (t, []) := by
  unfold receive
  split
  · rfl
  · cases state : t.state with
    | connecting => exact absurd state quiet.1
    | announcing => exact absurd state quiet.2
    | disconnected => rfl
    | resolving => rfl
    | connected => rfl
    | idle => rfl
    | stopped => rfl

theorem recvAnnounce_noise {noise : List Datagram} (ignored : ∀ datagram ∈ noise, Noise t.transactionId datagram)
    (rest : List Datagram) : t.recvAnnounce now (noise ++ rest) = t.recvAnnounce now rest := by
  induction noise with
  | nil => rfl
  | cons datagram noise ih =>
    have first := ignored datagram (List.mem_cons_self ..)
    have onward := ih (fun other member => ignored other (List.mem_cons_of_mem _ member))
    cases datagram with
    | interrupted => exact onward
    | wouldBlock => exact first.elim
    | failed => exact first.elim
    | data bytes =>
      have ignore : parseAnnounceReply (bytes.take 65536) t.transactionId = .ignore := first
      rw [List.cons_append, recvAnnounce, ignore]
      exact onward

theorem Helped.received (helped : Helped t revents env now) (leaving : Leaving t) (waiting : t.state = .announcing) :
    (receive env revents t).1.state = .stopped := by
  obtain ⟨readable, noise, bytes, rest, interval, leechers, seeders, peers, arrived, ignored, taken⟩ :=
    helped.acknowledges waiting
  have answered : t.recvAnnounce env.receivedAt env.recv =
      (true, t.acknowledge env.receivedAt interval leechers seeders,
        if t.inFlight = .eventStopped then [] else peers) := by
    rw [arrived, recvAnnounce_noise ignored, recvAnnounce, taken]
  have ended : (t.acknowledge env.receivedAt interval leechers seeders).state = .stopped :=
    acknowledge_stopped (leaving.flying waiting) _ _ _ _
  unfold receive
  rw [if_neg (by rw [readable]; decide), waiting]
  dsimp only
  rw [answered]
  exact ended

theorem Helped.accepted (helped : Helped t revents env now) (waiting : t.state = .connecting) :
    (receive env revents t).1.state = .connected ∧ (receive env revents t).1.connectedAt = env.receivedAt := by
  obtain ⟨readable, bytes, rest, arrived, long, action, txn⟩ := helped.accepts waiting
  have whole : ¬ (bytes.take 16).length < 16 := by
    rw [List.length_take]
    omega
  have matched : ¬ (BigEndian.readBe32 (bytes.take 16) ≠ 0 ∨
      BigEndian.readBe32 ((bytes.take 16).drop 4) ≠ t.transactionId) := by
    rw [action, txn]
    simp
  have answered : t.recvConnect env = (true, { t with
      connectionId := BigEndian.readBe64 ((bytes.take 16).drop 8)
      connectedAt := env.receivedAt
      retries := 0
      state := .connected }.note (.connectAccepted (BigEndian.readBe64 ((bytes.take 16).drop 8))
        env.receivedAt)) := by
    rw [recvConnect, arrived]
    exact (if_neg whole).trans (if_neg matched)
  unfold receive
  rw [if_neg (by rw [readable]; decide), waiting]
  dsimp only
  rw [answered]
  exact ⟨rfl, rfl⟩

theorem sendAnnounce_cases (t : TrackerSession) (stats : AnnounceParams) (named : m.peerId.length = 20)
    (sends : env.send = true) :
    ∃ after, m.sendAnnounce env stats t = .ok after ∧ (after.state = .announcing ∨
      after.state = .disconnected ∧ after.sock = t.sock ∧ seconds 60 ≤ env.sentAt - t.connectedAt) := by
  by_cases expired : seconds 60 ≤ env.sentAt - t.connectedAt
  · exact ⟨_, if_pos expired, Or.inr ⟨rfl, rfl, expired⟩⟩
  · rw [sendAnnounce, if_neg expired]
    simp only [buildAnnounceRequest, named, ne_eq, not_true_eq_false, if_false, Except.bind, bind, sends,
      Bool.true_eq_false]
    exact ⟨_, rfl, Or.inl rfl⟩

theorem sendConnect_sends (sends : env.send = true) (opened : t.sock ≠ none) :
    (t.sendConnect env).state = .connecting := by
  rw [sendConnect, if_neg opened]
  dsimp only
  rw [if_neg (by rw [sends]; decide)]
  rfl

/-- With help, every tick brings a session closer to its end. -/
theorem Helped.closer (helped : Helped t revents env now) (leaving : Leaving t) (grounded : Grounded t)
    (named : m.peerId.length = 20) :
    ∃ after, m.advance env stats now (receive env revents t).1 = .ok after ∧ distance after ≤ distance t - 1 := by
  cases state : t.state with
  | stopped =>
    refine ⟨t, ?_, ?_⟩
    · rw [receive_quiet (by rw [state]; decide), advance, state]
    · rw [distance, state]
      exact Nat.le_refl 0
  | announcing =>
    have ended := helped.received leaving state
    refine ⟨_, by rw [advance, ended], ?_⟩
    rw [distance, ended]
    exact Nat.zero_le _
  | connecting =>
    obtain ⟨ready, at_⟩ := helped.accepted state
    obtain ⟨after, sent, outcome⟩ := sendAnnounce_cases (receive env revents t).1 stats named helped.sends
    refine ⟨after, by rw [advance, ready]; exact sent, ?_⟩
    rcases outcome with announcing | ⟨-, -, expired⟩
    · simp only [distance, announcing, state, Nat.reduceSub, Nat.le_refl]
    · rw [at_] at expired
      exact absurd helped.swift (Int.not_lt.mpr expired)
  | resolving =>
    obtain ⟨fd, opens⟩ := helped.opens
    have connecting := @sendConnect_sends { t with lookup := false, sock := some fd } env helped.sends (by simp)
    refine ⟨{ t with lookup := false, sock := some fd }.sendConnect env, ?_, ?_⟩
    · rw [receive_quiet (by rw [state]; decide), advance, state]
      dsimp only
      rw [helped.resolved]
      dsimp only
      rw [opens]
    · have after : distance ({ t with lookup := false, sock := some fd }.sendConnect env) = 2 := by
        rw [distance, connecting]
      rw [after, distance, state]
      exact Nat.le_refl 2
  | disconnected =>
    refine ⟨t.sendConnect env, ?_, ?_⟩
    · rw [receive_quiet (by rw [state]; decide), advance, state]
      exact congrArg Except.ok (if_pos (helped.due state))
    · by_cases closed : t.sock = none
      · rw [sendConnect, if_pos closed]
        simp only [distance, state, closed, if_true]
        decide
      · simp only [distance, sendConnect_sends helped.sends closed, state, closed, if_false]
        decide
  | connected =>
    obtain ⟨after, sent, outcome⟩ := sendAnnounce_cases t stats named helped.sends
    refine ⟨after, ?_, ?_⟩
    · rw [receive_quiet (by rw [state]; decide), advance, state]
      exact sent
    · rcases outcome with announcing | ⟨off, sock, -⟩
      · simp only [distance, announcing, state]
        decide
      · have opened : after.sock ≠ none := by
          rw [sock]
          exact grounded.opened (Or.inr (Or.inl state))
        simp only [distance, off, state, opened, if_false]
        decide
  | idle => exact absurd state leaving.awake

theorem advance_returns (env : TrackerEnv) (stats : AnnounceParams) (now : Time) (t : TrackerSession)
    (named : m.peerId.length = 20) : ∃ after, m.advance env stats now t = .ok after := by
  unfold advance
  cases state : t.state with
  | connected =>
    obtain ⟨after, sent, -⟩ := sendAnnounce_alters env stats state named
    exact ⟨after, sent⟩
  | resolving =>
    dsimp only
    split
    · exact ⟨_, rfl⟩
    · exact ⟨_, rfl⟩
    · split
      · exact ⟨_, rfl⟩
      · exact ⟨_, rfl⟩
  | disconnected => exact ⟨_, rfl⟩
  | connecting => exact ⟨_, rfl⟩
  | announcing => exact ⟨_, rfl⟩
  | idle => exact ⟨_, rfl⟩
  | stopped => exact ⟨_, rfl⟩

theorem advanceAll_returns (envs : Nat → TrackerEnv) (stats : AnnounceParams) (now : Time) (i : Nat)
    (trackers : List TrackerSession) (named : m.peerId.length = 20) :
    ∃ advanced, m.advanceAll envs stats now i trackers = .ok advanced := by
  induction trackers generalizing i with
  | nil => exact ⟨[], rfl⟩
  | cons t trackers ih =>
    obtain ⟨first, moved⟩ := advance_returns (envs i) stats now t named
    obtain ⟨others, rest⟩ := ih (i + 1)
    refine ⟨first :: others, ?_⟩
    rw [advanceAll, moved]
    show (m.advanceAll envs stats now (i + 1) trackers >>= fun others => Except.ok (first :: others)) = _
    rw [rest]
    rfl

theorem recvAnnounce_silent (last : t.inFlight = .eventStopped) (datagrams : List Datagram) :
    (t.recvAnnounce now datagrams).2.2 = [] := by
  induction datagrams with
  | nil => rfl
  | cons datagram datagrams ih =>
    cases datagram with
    | interrupted => exact ih
    | wouldBlock => rfl
    | failed => rfl
    | data bytes =>
      rw [recvAnnounce]
      split
      · exact ih
      · rfl
      · exact if_pos last

theorem receive_silent (leaving : Leaving t) : (receive env revents t).2 = [] := by
  by_cases waiting : t.state = .announcing
  · unfold receive
    split
    · rfl
    · rw [waiting]
      exact recvAnnounce_silent (leaving.flying waiting) env.recv
  · by_cases connecting : t.state = .connecting
    · unfold receive
      split
      · rfl
      · rw [connecting]
    · rw [receive_quiet ⟨connecting, waiting⟩]

theorem tick_returns (driven : Driven m) (stopping : m.stopping = true) (named : m.peerId.length = 20)
    (revents : List Nat) (envs : Nat → TrackerEnv) (stats : AnnounceParams) (now : Time) :
    ∃ next, m.tick revents envs stats now = .ok (next, []) := by
  unfold tick
  split
  · exact ⟨m, rfl⟩
  · dsimp only
    have silent : ((m.trackers.mapIdx (fun i t => receive (envs i) (revents.getD i 0) t)).map Prod.snd).flatten =
      [] := by
      refine List.flatten_eq_nil_iff.mpr (fun peers member => ?_)
      obtain ⟨received, listed, same⟩ := List.mem_map.mp member
      obtain ⟨i, inside, place⟩ := List.mem_mapIdx.mp listed
      rw [← same, ← place]
      exact receive_silent (driven_leaving driven stopping _ (List.getElem_mem inside))
    obtain ⟨advanced, passed⟩ := advanceAll_returns envs stats now 0
      ((m.trackers.mapIdx (fun i t => receive (envs i) (revents.getD i 0) t)).map Prod.fst) named
    rw [passed, silent]
    exact ⟨_, rfl⟩

end Ticks

section Runs

variable {m next : TrackerManager} {i : Nat}

theorem HelpedBy.closer {op : Op} {t : TrackerSession} (driven : Driven m) (stopping : m.stopping = true)
    (named : m.peerId.length = 20) (here : m.trackers[i]? = some t) (helped : HelpedBy m i op) :
    ∃ next, m.perform op = some next ∧ next.stopping = true ∧ next.peerId = m.peerId ∧
      ∃ after, next.trackers[i]? = some after ∧ distance after ≤ distance t - 1 := by
  cases op with
  | onDownloadComplete now => exact helped.elim
  | beginShutdown now => exact helped.elim
  | tick revents envs stats now =>
    obtain ⟨matched, help⟩ := helped
    obtain ⟨inside, place⟩ := List.getElem?_eq_some_iff.mp here
    have member : t ∈ m.trackers := List.mem_of_getElem? here
    obtain ⟨next, ticked⟩ := tick_returns driven stopping named revents envs stats now
    obtain ⟨length, each⟩ := tick_passes matched ticked
    obtain ⟨after, advanced, closer⟩ := (help t here).closer (driven_leaving driven stopping t member)
      (driven_grounded driven t member) named
    have same : next.trackers[i]? = some after := by
      have passed := each i inside (by omega)
      rw [place, advanced] at passed
      rw [List.getElem?_eq_getElem (by omega), ← Except.ok.inj passed]
    have setting := tick_setting ticked
    refine ⟨next, ?_, ?_, ?_, after, same, closer⟩
    · rw [perform, ticked]
    · rw [setting]
      exact stopping
    · rw [setting]

theorem Helps.closer {ops : List Op} {t : TrackerSession} (driven : Driven m) (stopping : m.stopping = true)
    (named : m.peerId.length = 20) (here : m.trackers[i]? = some t) (helps : Helps i m ops) :
    ∃ final, run perform m ops = some final ∧
      ∃ after, final.trackers[i]? = some after ∧ distance after ≤ distance t - ops.length := by
  induction ops generalizing m t with
  | nil => exact ⟨m, rfl, t, here, Nat.le_refl _⟩
  | cons op ops ih =>
    obtain ⟨helped, onward⟩ := helps
    obtain ⟨next, performed, still, peer, middle, there, first⟩ := helped.closer driven stopping named here
    obtain ⟨final, ran, after, last, rest⟩ := ih (driven.next m next op performed) still (by rw [peer]; exact named)
      there (onward next performed)
    refine ⟨final, ?_, after, last, ?_⟩
    · rw [run, performed]
      exact ran
    · rw [List.length_cons]
      omega

theorem distance_bound {t : TrackerSession} (leaving : Leaving t) : distance t ≤ 4 := by
  unfold distance
  split
  · decide
  · decide
  · decide
  · decide
  · split
    · decide
    · decide
  · decide
  · rename_i resting
    exact absurd resting leaving.awake

theorem stopped_of_distance {t : TrackerSession} (near : distance t = 0) : t.state = .stopped := by
  cases state : t.state with
  | stopped => rfl
  | disconnected =>
    simp only [distance, state] at near
    split at near
    · cases near
    · cases near
  | announcing => simp only [distance, state, Nat.one_ne_zero] at near
  | connecting => simp [distance, state] at near
  | resolving => simp [distance, state] at near
  | connected => simp [distance, state] at near
  | idle => simp [distance, state] at near

end Runs

/-- From any state a shutdown can be in: a session that is done has no tracker left that counts us; no tick throws or
brings peers; and four ticks in which a tracker answers end its session, whatever the others do. -/
theorem shutdown_withdraws (m : TrackerManager) (driven : Driven m) (stopping : m.stopping = true)
    (named : m.peerId.length = 20) :
    (∀ t ∈ m.trackers, t.state = .stopped → Parted t) ∧
    (∀ revents envs stats now, ∃ next, m.tick revents envs stats now = .ok (next, [])) ∧
    ∀ i ops, i < m.trackers.length → 4 ≤ ops.length → Helps i m ops →
      ∃ final t, run perform m ops = some final ∧ final.trackers[i]? = some t ∧ t.state = .stopped ∧ Parted t := by
  refine ⟨driven_parted driven, tick_returns driven stopping named, ?_⟩
  intro i ops inside four helps
  have here : m.trackers[i]? = some m.trackers[i] := List.getElem?_eq_getElem inside
  obtain ⟨final, ran, t, there, near⟩ := helps.closer driven stopping named here
  have bound := distance_bound (driven_leaving driven stopping _ (List.getElem_mem inside))
  have ended : t.state = .stopped := stopped_of_distance (by omega)
  exact ⟨final, t, ran, there, ended, driven_parted (driven.run ran) t (List.mem_of_getElem? there) ended⟩

section Example

def leave : List Op :=
  [hearing [] 0, hearing [] 0, hearing [connectReply] 0, hearing [announceReply] 0, .beginShutdown (seconds 3)]

def goodbyes : List Op :=
  [hearing [] (seconds 3), hearing [announceReply] (seconds 4), hearing [] (seconds 4), hearing [] (seconds 4)]

def stands (m : TrackerManager) : List (TrackerState × Nat) := m.trackers.map (fun t => (t.state, t.transactionId))

theorem rounds_next {ops : List Op} {op : Op} {m next : TrackerManager} (ran : rounds ops = some m)
    (performed : m.perform op = some next) : rounds (ops ++ [op]) = some next := by
  unfold rounds at ran ⊢
  rw [run_append, ran, Option.bind_some, run, performed]
  rfl

theorem hearing_helped {ops : List Op} {m : TrackerManager} {state : TrackerState} {datagrams : List Datagram}
    {now : Time} (ran : rounds ops = some m) (seen : (rounds ops).map stands = some [(state, 5)])
    (fits : state = .connected ∨ state = .stopped ∨ state = .announcing ∧ datagrams = [announceReply]) :
    HelpedBy m 0 (hearing datagrams now) := by
  rw [ran] at seen
  have shown : stands m = [(state, 5)] := Option.some.inj seen
  have one : m.trackers.length = 1 := by
    have length := congrArg List.length shown
    rw [stands, List.length_map] at length
    exact length
  refine ⟨one.symm, fun t here => ?_⟩
  have fields : (t.state, t.transactionId) = (state, 5) := by
    have first := congrArg (fun states => states[0]?) shown
    simp only [stands, List.getElem?_map, here, Option.map_some, List.getElem?_cons_zero, Option.some.injEq] at first
    exact first
  obtain ⟨same, txn⟩ := Prod.mk.inj fields
  refine ⟨rfl, ⟨9, rfl⟩, rfl, ?_, ?_, ?_, ?_⟩
  · show now - now < seconds 60
    rw [Int.sub_self]
    decide
  · intro off
    rw [← same, off] at fits
    simp at fits
  · intro waiting
    rw [← same, waiting] at fits
    simp at fits
  · intro waiting
    rw [← same, waiting] at fits
    simp only [reduceCtorEq, true_and, false_or] at fits
    refine ⟨by decide, [], BigEndian.be32 1 ++ BigEndian.be32 5 ++ BigEndian.be32 1800 ++ BigEndian.be32 0 ++
      BigEndian.be32 0, [], 1800, 0, 0, [], fits, by simp, ?_⟩
    rw [txn]
    decide +kernel

end Example

theorem shutdown_withdraws_one_tracker :
    ∃ m final t, Driven m ∧ m.stopping = true ∧ run perform m goodbyes = some final ∧ final.trackers[0]? = some t ∧
      t.state = .stopped ∧ Parted t := by
  have set_up : (rounds leave).map (fun m => (m.stopping, m.peerId.length, m.trackers.length)) =
      some (true, 20, 1) := by
    decide +kernel
  obtain ⟨m, ran, shown⟩ := Option.map_eq_some_iff.mp set_up
  simp only [Prod.mk.injEq] at shown
  obtain ⟨stopping, named, one⟩ := shown
  have helps : Helps 0 m goodbyes := by
    refine ⟨hearing_helped ran (show _ = some [(.connected, 5)] by decide +kernel) (Or.inl rfl), fun first p => ?_⟩
    have ran := rounds_next ran p
    refine ⟨hearing_helped ran (show _ = some [(.announcing, 5)] by decide +kernel) (Or.inr (Or.inr ⟨rfl, rfl⟩)),
      fun second p => ?_⟩
    have ran := rounds_next ran p
    refine ⟨hearing_helped ran (show _ = some [(.stopped, 5)] by decide +kernel) (Or.inr (Or.inl rfl)),
      fun third p => ?_⟩
    have ran := rounds_next ran p
    exact ⟨hearing_helped ran (show _ = some [(.stopped, 5)] by decide +kernel) (Or.inr (Or.inl rfl)),
      fun _ _ => trivial⟩
  have driven := rounds_driven ran
  obtain ⟨final, t, ended⟩ := (shutdown_withdraws m driven stopping named).2.2 0 goodbyes (by rw [one]; decide)
    (by decide) helps
  exact ⟨m, final, t, driven, stopping, ended⟩

end TorrentPeer.TrackerManager
