import TorrentPeer.Runtime.TrackerIds

/-! How long `poll` may sleep for the trackers: `until_next_action` against what the timer pass
of a tick does to the sessions. -/

namespace TorrentPeer.TrackerManager

open TrackerSession Transition

def Alters (t next : TrackerSession) : Prop := next.state ≠ t.state ∨ next.sock ≠ t.sock

def RoundsUp (wait : Int) (span : Time) : Prop := span ≤ wait * 1000000 ∧ wait * 1000000 < span + 1000000

section Timers

variable {m : TrackerManager} {t : TrackerSession} {time : Time}

theorem advance_rests (env : TrackerEnv) (stats : AnnounceParams) (found : t.state ≠ .resolving)
    (announced : t.state ≠ .connected) (early : t.state = .stopped ∨ time < t.nextAction) :
    m.advance env stats time t = .ok t := by
  have late : t.state ≠ .stopped → ¬ t.nextAction ≤ time := fun live =>
    Int.not_le.mpr (early.resolve_left live)
  unfold advance
  cases state : t.state with
  | disconnected => exact congrArg Except.ok (if_neg (late (by rw [state]; decide)))
  | resolving => exact absurd state found
  | connecting => exact congrArg Except.ok (if_neg (late (by rw [state]; decide)))
  | connected => exact absurd state announced
  | announcing => exact congrArg Except.ok (if_neg (late (by rw [state]; decide)))
  | idle => exact congrArg Except.ok (if_neg (late (by rw [state]; decide)))
  | stopped => rfl

theorem sendConnect_alters (env : TrackerEnv) (off : t.state = .disconnected) : Alters t (t.sendConnect env) := by
  unfold sendConnect
  split
  · left
    rw [off]
    exact nofun
  · rename_i opened
    dsimp only
    split
    · exact Or.inr (fun same => opened same.symm)
    · left
      rw [off]
      exact nofun

theorem sendAnnounce_alters (env : TrackerEnv) (stats : AnnounceParams) (ready : t.state = .connected)
    (named : m.peerId.length = 20) : ∃ next, m.sendAnnounce env stats t = .ok next ∧ Alters t next := by
  unfold sendAnnounce
  split
  · refine ⟨_, rfl, Or.inl ?_⟩
    rw [ready]
    exact nofun
  · simp only [buildAnnounceRequest, named, ne_eq, not_true_eq_false, if_false, Except.bind, bind]
    split
    · refine ⟨_, rfl, Or.inl ?_⟩
      rw [ready]
      exact nofun
    · refine ⟨_, rfl, Or.inl ?_⟩
      rw [ready]
      exact nofun

theorem advance_alters (env : TrackerEnv) (stats : AnnounceParams) (found : t.state ≠ .resolving)
    (live : t.state ≠ .stopped) (named : t.state = .connected → m.peerId.length = 20) (due : t.nextAction ≤ time) :
    ∃ next, m.advance env stats time t = .ok next ∧ Alters t next := by
  have timeout (waiting : t.state = .connecting ∨ t.state = .announcing) : Alters t (t.onTimeout time) := by
    left
    rcases waiting with waiting | waiting <;> rw [waiting] <;> exact nofun
  unfold advance
  cases state : t.state with
  | disconnected => exact ⟨_, congrArg Except.ok (if_pos due), sendConnect_alters env state⟩
  | resolving => exact absurd state found
  | connecting => exact ⟨_, congrArg Except.ok (if_pos due), timeout (Or.inl state)⟩
  | connected => exact sendAnnounce_alters env stats state (named state)
  | announcing => exact ⟨_, congrArg Except.ok (if_pos due), timeout (Or.inr state)⟩
  | idle =>
    refine ⟨_, congrArg Except.ok (if_pos due), Or.inl ?_⟩
    rw [state]
    exact nofun
  | stopped => exact absurd state live

end Timers

section Between

variable {m : TrackerManager} {t next : TrackerSession}

def Apart (t : TrackerSession) : Prop :=
  t.state = .disconnected ∨ t.state = .resolving ∨ t.state = .connecting ∨ t.state = .stopped

theorem recvConnect_state (env : TrackerEnv) (t : TrackerSession) :
    (t.recvConnect env).2 = t ∨ (t.recvConnect env).1 = true ∧ (t.recvConnect env).2.state = .connected := by
  unfold recvConnect
  split
  · exact Or.inl rfl
  · dsimp only
    split
    · exact Or.inl rfl
    · split
      · exact Or.inl rfl
      · exact Or.inr ⟨rfl, rfl⟩
  · exact Or.inl rfl

theorem acknowledge_state (t : TrackerSession) (now : Time) (interval leechers seeders : Nat) :
    (t.acknowledge now interval leechers seeders).state = .idle ∨
      (t.acknowledge now interval leechers seeders).state = .stopped := by
  unfold TrackerSession.acknowledge
  dsimp only
  split
  · exact Or.inr rfl
  · exact Or.inl rfl

theorem receive_state (env : TrackerEnv) (revents : Nat) (t : TrackerSession) :
    (receive env revents t).1 = t ∨ PeerManager.readable revents = true ∧
      (t.state = .connecting ∧
          ((receive env revents t).1.state = .connected ∨ (receive env revents t).1.state = .disconnected) ∨
        t.state = .announcing ∧ ((receive env revents t).1.state = .idle ∨
          (receive env revents t).1.state = .stopped ∨ (receive env revents t).1.state = .disconnected)) := by
  unfold receive
  split
  · exact Or.inl rfl
  · rename_i some_
    have ready : PeerManager.readable revents = true := Bool.eq_true_of_not_eq_false some_
    cases state : t.state with
    | connecting =>
      dsimp only
      split
      · exact Or.inr ⟨ready, Or.inl ⟨rfl, Or.inr rfl⟩⟩
      · rcases recvConnect_state env t with same | ⟨-, accepted⟩
        · exact Or.inl same
        · exact Or.inr ⟨ready, Or.inl ⟨rfl, Or.inl accepted⟩⟩
    | announcing =>
      dsimp only
      split
      · exact Or.inr ⟨ready, Or.inr ⟨rfl, Or.inr (Or.inr rfl)⟩⟩
      · rcases recvAnnounce_cases t env.receivedAt env.recv with same | ⟨-, interval, leechers, seeders, same⟩
        · exact Or.inl same
        · rw [same]
          refine Or.inr ⟨ready, Or.inr ⟨rfl, ?_⟩⟩
          exact (acknowledge_state t _ interval leechers seeders).imp_right Or.inl
    | _ => exact Or.inl rfl

theorem sendConnect_apart (env : TrackerEnv) (t : TrackerSession) : Apart (t.sendConnect env) := by
  unfold sendConnect
  split
  · exact Or.inr (Or.inl rfl)
  · dsimp only
    split
    · exact Or.inl rfl
    · exact Or.inr (Or.inr (Or.inl rfl))

theorem advance_state {env : TrackerEnv} {stats : AnnounceParams} {now : Time}
    (advanced : m.advance env stats now t = .ok next) :
    Apart next ∨ next = t ∧ (t.state = .announcing ∨ t.state = .idle) ∨
      next.state = .announcing ∧ m.peerId.length = 20 := by
  unfold advance at advanced
  split at advanced
  · rename_i off
    cases advanced
    split
    · exact Or.inl (sendConnect_apart env t)
    · exact Or.inl (Or.inl off)
  · rename_i off
    split at advanced
    · cases advanced
      exact Or.inl (Or.inr (Or.inl off))
    · cases advanced
      exact Or.inl (Or.inl rfl)
    · split at advanced
      · cases advanced
        exact Or.inl (Or.inl rfl)
      · cases advanced
        exact Or.inl (sendConnect_apart env _)
  · rename_i waiting
    cases advanced
    split
    · exact Or.inl (Or.inl rfl)
    · exact Or.inl (Or.inr (Or.inr (Or.inl waiting)))
  · rename_i waiting
    cases advanced
    split
    · exact Or.inl (Or.inl rfl)
    · exact Or.inr (Or.inl ⟨rfl, Or.inl waiting⟩)
  · unfold sendAnnounce at advanced
    split at advanced
    · cases advanced
      exact Or.inl (Or.inl rfl)
    · obtain ⟨packet, built, sent⟩ := bind_ok advanced
      split at sent
      · cases sent
        exact Or.inl (Or.inl rfl)
      · cases sent
        unfold buildAnnounceRequest at built
        split at built
        · cases built
        · rename_i named
          exact Or.inr (Or.inr ⟨rfl, not_not.mp named⟩)
  · rename_i resting
    cases advanced
    split
    · exact Or.inl (Or.inl rfl)
    · exact Or.inr (Or.inl ⟨rfl, Or.inr resting⟩)
  · rename_i ended
    cases advanced
    exact Or.inl (Or.inr (Or.inr (Or.inr ended)))

/-- A session between two calls: only a shutdown leaves it `Connected`, and due at once; and a
session that was announced has a peer id that can be announced. -/
structure Awaiting (m : TrackerManager) (t : TrackerSession) : Prop where
  woken : t.state = .connected → .beginShutdown t.nextAction ∈ t.history
  named : t.state = .connected ∨ t.state = .announcing ∨ t.state = .idle → m.peerId.length = 20

theorem Awaiting.apart (apart : Apart t) : Awaiting m t := by
  constructor
  · intro state
    rcases apart with apart | apart | apart | apart <;> rw [apart] at state <;> cases state
  · intro state
    rcases apart with apart | apart | apart | apart <;> rw [apart] at state <;>
      rcases state with state | state | state <;>
      cases state

theorem Awaiting.open (named : m.peerId.length = 20) (state : t.state = .announcing ∨ t.state = .idle) :
    Awaiting m t := by
  refine ⟨fun ready => ?_, fun _ => named⟩
  rw [ready] at state
  rcases state with state | state <;> cases state

theorem Awaiting.passes {env : TrackerEnv} {revents : Nat} {stats : AnnounceParams} {now : Time}
    (awaiting : Awaiting m t) (advanced : m.advance env stats now (receive env revents t).1 = .ok next) :
    Awaiting m next := by
  rcases advance_state advanced with apart | ⟨same, state⟩ | ⟨state, named⟩
  · exact Awaiting.apart apart
  · rw [same]
    refine Awaiting.open (awaiting.named ?_) state
    -- the packet pass lets only an announcing or idle session be one of the two
    rcases receive_state env revents t with kept | ⟨-, ⟨-, ended⟩ | ⟨before, -⟩⟩
    · rw [kept] at state
      exact Or.inr state
    · rcases ended with ended | ended <;> rw [ended] at state <;> rcases state with state | state <;> cases state
    · exact Or.inr (Or.inl before)
  · exact Awaiting.open named (Or.inl state)

theorem Awaiting.rouse (awaiting : Awaiting m t) (now : Time) :
    Awaiting (m.onDownloadComplete now) (rouse now t) := by
  unfold TrackerManager.rouse
  dsimp only
  split
  · rename_i resting
    have state : t.state = .idle := resting.1
    exact Awaiting.open (awaiting.named (Or.inr (Or.inr state))) (Or.inr state)
  · exact ⟨fun state => List.mem_append_left _ (awaiting.woken state), awaiting.named⟩

theorem Awaiting.withdraw (awaiting : Awaiting m t) (now : Time) :
    Awaiting (m.beginShutdown now) (withdraw now t) := by
  have recorded : Deed.beginShutdown now ∈ t.history ++ [.beginShutdown now] := List.mem_append_right _ (by simp)
  unfold TrackerManager.withdraw
  dsimp only
  split
  · exact Awaiting.apart (Or.inr (Or.inr (Or.inr rfl)))
  · split
    · rename_i off
      exact Awaiting.apart (Or.inl off)
    · rename_i resting
      exact ⟨fun _ => recorded, fun _ => awaiting.named (Or.inr (Or.inr resting))⟩
    · rename_i waiting
      exact ⟨fun _ => recorded, fun _ => awaiting.named (Or.inr (Or.inl waiting))⟩
    · exact ⟨fun state => List.mem_append_left _ (awaiting.woken state), awaiting.named⟩

theorem tick_awaiting {after : TrackerManager} {revents : List Nat} {envs : Nat → TrackerEnv} {stats : AnnounceParams}
    {now : Time} {fresh : List Peer} (each : ∀ t ∈ m.trackers, Awaiting m t)
    (ticked : m.tick revents envs stats now = .ok (after, fresh)) : ∀ t ∈ after.trackers, Awaiting after t := by
  intro t member
  have same : after.peerId = m.peerId := by rw [tick_setting ticked]
  suffices kept : Awaiting m t from ⟨kept.woken, fun state => same ▸ kept.named state⟩
  by_cases matched : revents.length = m.trackers.length
  · obtain ⟨length, passed⟩ := tick_passes matched ticked
    obtain ⟨i, high, place⟩ := List.mem_iff_getElem.mp member
    have low : i < m.trackers.length := by omega
    rw [← place]
    exact (each _ (List.getElem_mem low)).passes (passed i low high)
  · unfold tick at ticked
    rw [if_pos matched] at ticked
    cases ticked
    exact each t member

theorem driven_awaiting {m : TrackerManager} (driven : Driven m) : ∀ t ∈ m.trackers, Awaiting m t := by
  induction driven with
  | start m begins =>
    intro t member
    obtain ⟨address, key, same⟩ := created_session begins t member
    rw [same]
    exact Awaiting.apart (Or.inl rfl)
  | next m after op _ performed ih =>
    cases op with
    | tick revents envs stats now =>
      simp only [perform] at performed
      split at performed
      · rename_i next fresh ticked
        cases performed
        exact tick_awaiting ih ticked
      · cases performed
    | onDownloadComplete now =>
      cases performed
      intro t member
      obtain ⟨old, present, same⟩ := List.mem_map.mp member
      rw [← same]
      exact (ih old present).rouse now
    | beginShutdown now =>
      cases performed
      intro t member
      obtain ⟨old, present, same⟩ := List.mem_map.mp member
      rw [← same]
      exact (ih old present).withdraw now

end Between

section Sleeping

variable {m : TrackerManager}

/-- `until_next_action` looks at the earliest `next_action` of the sessions that have not stopped. -/
theorem untilNextAction_cases (now : Time) (found : ∀ t ∈ m.trackers, t.state ≠ .resolving) :
    (∀ t ∈ m.trackers, t.state = .stopped) ∧ m.untilNextAction now = 3600000 ∨
      ∃ first ∈ m.trackers, first.state ≠ .stopped ∧
        (∀ t ∈ m.trackers, t.state ≠ .stopped → first.nextAction ≤ t.nextAction) ∧
        m.untilNextAction now =
          if first.nextAction ≤ now then 0 else -((now - first.nextAction) / 1000000) := by
  unfold untilNextAction
  extract_lets due
  have timer : ∃ timer : TrackerSession → Option Time, due = m.trackers.filterMap timer ∧
      ∀ t ∈ m.trackers, timer t = if t.state = .stopped then none else some t.nextAction := by
    refine ⟨_, rfl, fun t member => ?_⟩
    cases state : t.state with
    | resolving => exact absurd state (found t member)
    | _ => rfl
  obtain ⟨timer, listing, shows⟩ := timer
  rw [listing]
  cases least : (m.trackers.filterMap timer).min? with
  | none =>
    left
    refine ⟨fun t member => ?_, rfl⟩
    by_contra live
    have empty := List.min?_eq_none_iff.mp least
    have impossible := List.filterMap_eq_nil_iff.mp empty t member
    rw [shows t member, if_neg live] at impossible
    cases impossible
  | some soonest =>
    right
    obtain ⟨listed, minimal⟩ := List.min?_eq_some_iff.mp least
    obtain ⟨first, member, shown⟩ := List.mem_filterMap.mp listed
    have live : first.state ≠ .stopped := by
      intro stopped
      rw [shows first member, if_pos stopped] at shown
      cases shown
    rw [shows first member, if_neg live, Option.some.injEq] at shown
    refine ⟨first, member, live, fun t present running => ?_, by rw [shown]⟩
    rw [shown]
    exact minimal _ (List.mem_filterMap.mpr ⟨t, present, by rw [shows t present, if_neg running]⟩)

theorem roundsUp_wait (moment now : Int) :
    RoundsUp (if moment ≤ now then 0 else -((now - moment) / 1000000)) (max 0 (moment - now)) := by
  show max 0 (moment - now) ≤ (if moment ≤ now then 0 else -((now - moment) / 1000000)) * 1000000 ∧
    (if moment ≤ now then 0 else -((now - moment) / 1000000)) * 1000000 < max 0 (moment - now) + (1000000 : Int)
  split <;> omega

theorem wait_zero {moment now : Int} (zero : (if moment ≤ now then 0 else -((now - moment) / 1000000)) = (0 : Int)) :
    moment ≤ now := by
  split at zero <;> omega

end Sleeping

/-- In every state between two calls, with no lookup under way, at a time that is not before a
shutdown that has happened: `until_next_action` is the time from now to the first moment at
which the timer pass alters a session, rounded up, or an hour if it never will. If that is
zero, some session is due, and the next tick alters every session that is due, in its timer pass
or already in its packet pass. -/
theorem sleeps_until_due (m : TrackerManager) (driven : Driven m) (now : Time)
    (clock : ∀ t ∈ m.trackers, ∀ time, .beginShutdown time ∈ t.history → time ≤ now)
    (found : ∀ t ∈ m.trackers, t.state ≠ .resolving) :
    ((m.untilNextAction now = 3600000 ∧ ∀ time env stats, ∀ t ∈ m.trackers, m.advance env stats time t = .ok t) ∨
      ∃ moment, RoundsUp (m.untilNextAction now) (max 0 (moment - now)) ∧
        (∀ time, now ≤ time → time < moment → ∀ env stats, ∀ t ∈ m.trackers, m.advance env stats time t = .ok t) ∧
        ∀ time, now ≤ time → moment ≤ time → ∃ t ∈ m.trackers, ∀ env stats, ∃ next,
          m.advance env stats time t = .ok next ∧ Alters t next) ∧
    (m.untilNextAction now = 0 →
      (∃ t ∈ m.trackers, t.state ≠ .stopped ∧ t.nextAction ≤ now) ∧
      ∀ later, now ≤ later → ∀ revents envs stats next fresh, revents.length = m.trackers.length →
        m.tick revents envs stats later = .ok (next, fresh) →
        next.trackers.length = m.trackers.length ∧
        ∀ i (low : i < m.trackers.length) (high : i < next.trackers.length),
          m.trackers[i].state ≠ .stopped → m.trackers[i].nextAction ≤ now →
          (receive (envs i) (revents.getD i 0) m.trackers[i]).1 = m.trackers[i] ∧
              Alters m.trackers[i] next.trackers[i] ∨
            PeerManager.readable (revents.getD i 0) = true ∧
              Alters m.trackers[i] (receive (envs i) (revents.getD i 0) m.trackers[i]).1) := by
  have awaiting := driven_awaiting driven
  have connected_due (t : TrackerSession) (member : t ∈ m.trackers) (ready : t.state = .connected) :
      t.nextAction ≤ now := clock t member _ ((awaiting t member).woken ready)
  rcases untilNextAction_cases now found with ⟨ended, hour⟩ | ⟨first, member, live, least, wait⟩
  · refine ⟨Or.inl ⟨hour, fun time env stats t present => ?_⟩, fun zero => absurd (hour.symm.trans zero) (by decide)⟩
    have stopped := ended t present
    exact advance_rests env stats (by rw [stopped]; decide) (by rw [stopped]; decide) (Or.inl stopped)
  · have acts (t : TrackerSession) (present : t ∈ m.trackers) (running : t.state ≠ .stopped) (time : Time)
        (due : t.nextAction ≤ time) (env : TrackerEnv) (stats : AnnounceParams) :=
      advance_alters env stats (found t present) running (fun ready => (awaiting t present).named (Or.inl ready)) due
    refine ⟨Or.inr ⟨first.nextAction, ?_, ?_, ?_⟩, ?_⟩
    · rw [wait]
      exact roundsUp_wait first.nextAction now
    · intro time after early env stats t present
      by_cases stopped : t.state = .stopped
      · exact advance_rests env stats (found t present) (by rw [stopped]; decide) (Or.inl stopped)
      · have later := Int.lt_of_lt_of_le early (least t present stopped)
        refine advance_rests env stats (found t present) (fun ready => ?_) (Or.inr later)
        have due := Int.le_trans (connected_due t present ready) after
        exact absurd due (Int.not_le.mpr later)
    · intro time _ due
      exact ⟨first, member, acts first member live time due⟩
    · intro zero
      refine ⟨⟨first, member, live, wait_zero (wait.symm.trans zero)⟩, ?_⟩
      intro later after revents envs stats next fresh matched ticked
      obtain ⟨length, passed⟩ := tick_passes matched ticked
      refine ⟨length.symm, ?_⟩
      intro i low high running due
      have step := passed i low high
      rcases receive_state (envs i) (revents.getD i 0) m.trackers[i] with kept | ⟨ready, changed⟩
      · rw [kept] at step
        obtain ⟨altered, moved, alters⟩ :=
          acts m.trackers[i] (List.getElem_mem low) running later (Int.le_trans due after) (envs i) stats
        rw [moved] at step
        cases step
        exact Or.inl ⟨kept, alters⟩
      · refine Or.inr ⟨ready, Or.inl ?_⟩
        rcases changed with ⟨before, state | state⟩ | ⟨before, state | state | state⟩ <;>
          rw [before, state] <;> decide

section Example

def introduction : List Op := [hearing [] 0, hearing [] 0, hearing [connectReply] 0]

def runningDeed : Deed → Bool
  | .beginShutdown _ => false
  | _ => true

def lastMinute : TrackerEnv :=
  ⟨[announceReply], .resolved, some 9, 5, true, seconds 15, seconds 15, seconds 15, seconds 15⟩

end Example

/-- Five seconds after the announce there are ten to wait, and then the session times out. -/
theorem sleeps_until_due_announced :
    ∃ m, Driven m ∧ m.untilNextAction (seconds 5) = 10000 ∧ ∃ moment,
      RoundsUp (m.untilNextAction (seconds 5)) (max 0 (moment - seconds 5)) ∧
      ∀ time, seconds 5 ≤ time → moment ≤ time → ∃ t ∈ m.trackers, ∀ env stats, ∃ next,
        m.advance env stats time t = .ok next ∧ Alters t next := by
  have seen : (rounds introduction).map (fun m => (m.untilNextAction (seconds 5),
      m.trackers.all (fun t => decide (t.state ≠ .resolving) && t.history.all runningDeed))) =
        some (10000, true) := by
    decide +kernel
  obtain ⟨m, ran, shown⟩ := Option.map_eq_some_iff.mp seen
  simp only [Prod.mk.injEq] at shown
  obtain ⟨wait, checked⟩ := shown
  have each (t : TrackerSession) (member : t ∈ m.trackers) :
      t.state ≠ .resolving ∧ ∀ deed ∈ t.history, runningDeed deed = true := by
    have both := List.all_eq_true.mp checked t member
    rw [Bool.and_eq_true, decide_eq_true_eq, List.all_eq_true] at both
    exact both
  have clock : ∀ t ∈ m.trackers, ∀ time, .beginShutdown time ∈ t.history → time ≤ seconds 5 := by
    intro t member time shut
    cases (each t member).2 _ shut
  rcases (sleeps_until_due m (rounds_driven ran) (seconds 5) clock (fun t member => (each t member).1)).1 with
    ⟨hour, -⟩ | ⟨moment, rounds, -, acts⟩
  · rw [wait] at hour
    cases hour
  · exact ⟨m, rounds_driven ran, wait, moment, rounds, acts⟩

/-- The reply arrives in the very tick that would have timed the announce out: the packet pass
puts the session to rest, and the timer pass has nothing to do. -/
theorem timer_pass_overtaken :
    ∃ m, Driven m ∧ (∀ t ∈ m.trackers, t.state = .announcing) ∧ m.untilNextAction (seconds 15) = 0 ∧
      ∃ next fresh, m.tick [pollIn] (fun _ => lastMinute) ⟨0, 0, 1⟩ (seconds 15) = .ok (next, fresh) ∧
        next.trackers = m.trackers.map (fun t => (receive lastMinute pollIn t).1) := by
  have seen : (rounds introduction).map (fun m => (m.untilNextAction (seconds 15),
      m.trackers.all (fun t => decide (t.state = .announcing)),
      (m.tick [pollIn] (fun _ => lastMinute) ⟨0, 0, 1⟩ (seconds 15)).toOption.map (fun result =>
        decide (result.1.trackers = m.trackers.map (fun t => (receive lastMinute pollIn t).1))))) =
      some (0, true, some true) := by
    decide +kernel
  obtain ⟨m, ran, shown⟩ := Option.map_eq_some_iff.mp seen
  simp only [Prod.mk.injEq] at shown
  obtain ⟨zero, announcing, same⟩ := shown
  refine ⟨m, rounds_driven ran, fun t member => of_decide_eq_true (List.all_eq_true.mp announcing t member), zero, ?_⟩
  cases ticked : m.tick [pollIn] (fun _ => lastMinute) ⟨0, 0, 1⟩ (seconds 15) with
  | error thrown =>
    rw [ticked] at same
    cases same
  | ok result =>
    rw [ticked, Except.toOption, Option.map_some, Option.some.injEq] at same
    exact ⟨result.1, result.2, rfl, of_decide_eq_true same⟩

end TorrentPeer.TrackerManager
