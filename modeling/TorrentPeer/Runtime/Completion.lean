import TorrentPeer.Runtime.TrackerIds

/-! The `completed` announce: once the download is done, a session that still owes it does not
rest, unless an announce without it was still to be acknowledged. -/

namespace TorrentPeer.TrackerManager

open TrackerSession Transition

/-- A manager with the time of the last call. -/
structure Watch where
  m : TrackerManager
  clock : Time

def Op.time : Op → Time
  | .tick _ _ _ now => now
  | .onDownloadComplete now => now
  | .beginShutdown now => now

def watch (w : Watch) (op : Op) : Option Watch :=
  if op.time < w.clock then none else (w.m.perform op).map (fun next => ⟨next, op.time⟩)

def Settled (t : TrackerSession) : Prop :=
  t.reported ≠ .reportedNothing ∧
    (t.state = .announcing → t.inFlight = .eventCompleted ∨
      t.reported = .reportedCompleted ∧ t.inFlight ≠ .eventStarted)

def Ready (w : Watch) (op : Op) : Prop :=
  ∀ now, op = .onDownloadComplete now → ∀ t ∈ w.m.trackers, Settled t

def Awake (clock : Time) (t : TrackerSession) : Prop :=
  Settled t ∧ (t.reported = .reportedStarted → t.state = .idle → t.nextAction ≤ clock)

section Moves

variable {m : TrackerManager} {clock : Time} {t next : TrackerSession}

theorem Awake.later {after : Time} (awake : Awake clock t) (forward : clock ≤ after) : Awake after t :=
  ⟨awake.1, fun owes rests => Int.le_trans (awake.2 owes rests) forward⟩

theorem Awake.plain (awake : Awake clock t) (reported : next.reported = t.reported)
    (state : next.state ≠ .announcing ∧ next.state ≠ .idle) : Awake clock next := by
  refine ⟨⟨by rw [reported]; exact awake.1.1, fun flying => absurd flying state.1⟩,
    fun _ rests => absurd rests state.2⟩

theorem Awake.told (reported : next.reported = .reportedCompleted) (quiet : next.state ≠ .announcing) :
    Awake clock next := by
  refine ⟨⟨fun none_yet => ?_, fun flying => absurd flying quiet⟩, fun owes => ?_⟩
  · exact absurd (reported.symm.trans none_yet) (by decide)
  · exact absurd (reported.symm.trans owes) (by decide)

theorem Awake.acknowledge (awake : Awake clock t) (now : Time) (interval leechers seeders : Nat)
    (waiting : t.state = .announcing) : Awake clock (t.acknowledge now interval leechers seeders) := by
  unfold TrackerSession.acknowledge
  dsimp only [TrackerSession.note]
  split
  · exact awake.plain rfl (by simp)
  · apply Awake.told _ (by simp)
    rcases awake.1.2 waiting with flight | ⟨finished, later⟩
    · rw [flight]
    · cases flight : t.inFlight with
      | eventStarted => exact absurd flight later
      | eventCompleted => rfl
      | _ => exact finished

theorem Awake.move (complete : m.downloadComplete = true) (going : m.stopping = false) (awake : Awake clock t)
    (move : Move m t next) : Awake clock next := by
  cases move with
  | stays => exact awake
  | accepts connectionId now waiting small => exact awake.plain rfl ⟨nofun, nofun⟩
  | acknowledges now interval leechers seeders waiting => exact awake.acknowledge now _ _ _ waiting
  | looksUp off => exact awake.plain rfl ⟨nofun, nofun⟩
  | connects lookup fd txn now off => exact awake.plain rfl ⟨nofun, nofun⟩
  | announces txn packet now ready young carries =>
    -- the download is complete: a session that owes it announces it
    refine ⟨⟨awake.1.1, fun _ => ?_⟩, nofun⟩
    show m.pendingEvent t = .eventCompleted ∨ t.reported = .reportedCompleted ∧ m.pendingEvent t ≠ .eventStarted
    unfold pendingEvent
    rw [if_neg (by rw [going]; decide)]
    cases held : t.reported with
    | reportedNothing => exact absurd held awake.1.1
    | reportedStarted => exact Or.inl (if_pos complete)
    | reportedCompleted => exact Or.inr ⟨rfl, nofun⟩
  | backsOff lookup sock txn event now live => exact awake.plain rfl ⟨nofun, nofun⟩
  | timesOut now waiting => exact awake.plain rfl ⟨nofun, nofun⟩
  | leaves deadline ready => exact awake.plain rfl ⟨nofun, nofun⟩

theorem rouse_awake (now : Time) (settled : Settled t) : Awake now (rouse now t) := by
  unfold rouse
  dsimp only [TrackerSession.note]
  split
  · exact ⟨settled, fun _ _ => Int.le_refl _⟩
  · rename_i other
    exact ⟨settled, fun owes rests => absurd ⟨rests, owes⟩ other⟩

end Moves

/-- From the end of the download to the shutdown, no session that owes the completed event rests past
the clock. -/
def Wakeful (w : Watch) : Prop :=
  w.m.downloadComplete = true → w.m.stopping = false → ∀ t ∈ w.m.trackers, Awake w.clock t

theorem Wakeful.step {w next : Watch} {op : Op} (wakeful : Wakeful w) (ready : Ready w op)
    (moves : watch w op = some next) : Wakeful next := by
  unfold watch at moves
  split at moves
  · cases moves
  · rename_i forward
    obtain ⟨after, performed, same⟩ := Option.map_eq_some_iff.mp moves
    subst same
    intro complete going
    cases op with
    | tick revents envs stats now =>
      simp only [perform] at performed
      split at performed
      · rename_i last fresh ticked
        cases performed
        obtain ⟨same_complete, same_stopping, -⟩ := tick_moves ticked
        dsimp only at complete going
        rw [same_complete] at complete
        rw [same_stopping] at going
        intro t member
        obtain ⟨old, present, middle, first, second⟩ := tick_origin ticked t member
        have before := wakeful complete going old present
        exact ((before.move complete going first).move complete going second).later (Int.not_lt.mp forward)
      · cases performed
    | onDownloadComplete now =>
      cases performed
      intro t member
      obtain ⟨old, present, same⟩ := List.mem_map.mp member
      rw [← same]
      exact rouse_awake now (ready now rfl old present)
    | beginShutdown now =>
      cases performed
      cases going

theorem within_wakeful {w : Watch} (reached : ReachableWithin watch (fun w => Created w.m) Ready w) :
    Wakeful w := by
  induction reached with
  | start w begins =>
    obtain ⟨torrent, peerId, listenPort, key, same⟩ := begins
    intro complete
    rw [same] at complete
    cases complete
  | next w after op _ permitted moves ih => exact ih.step permitted moves

/-- In every run in which the sessions are settled when the download is found complete: as long as
nobody stops, no session that still owes `completed` rests past the present. -/
theorem owing_sessions_awake (w : Watch) (reached : ReachableWithin watch (fun w => Created w.m) Ready w)
    (complete : w.m.downloadComplete = true) (going : w.m.stopping = false) (t : TrackerSession)
    (member : t ∈ w.m.trackers) :
    ¬ (t.reported = .reportedStarted ∧ t.state = .idle ∧ w.clock < t.nextAction) := by
  rintro ⟨owes, rests, late⟩
  exact absurd ((within_wakeful reached complete going t member).2 owes rests) (Int.not_le.mpr late)

section Example

def registration : List Op :=
  [hearing [] 0, hearing [] 0, hearing [connectReply] 0, hearing [announceReply] 0]

def overtaken : List Op :=
  [hearing [] 0, hearing [] 0, hearing [connectReply] 0, .onDownloadComplete (seconds 1),
    hearing [announceReply] (seconds 2)]

def observe (ops : List Op) : Option Watch :=
  run watch ⟨create announced (List.replicate 20 7) 6881 1, 0⟩ ops

/-- What is looked at in the end. -/
structure Glimpse where
  clock : Time
  complete : Bool
  stopping : Bool
  sessions : List (Reported × TrackerState × Time)
  deriving DecidableEq

def glimpse (w : Watch) : Glimpse :=
  ⟨w.clock, w.m.downloadComplete, w.m.stopping, w.m.trackers.map (fun t => (t.reported, t.state, t.nextAction))⟩

theorem glimpse_session {w : Watch} {clock due : Time} {complete stopping : Bool} {reported : Reported}
    {state : TrackerState} (seen : glimpse w = ⟨clock, complete, stopping, [(reported, state, due)]⟩) :
    w.clock = clock ∧ w.m.downloadComplete = complete ∧ w.m.stopping = stopping ∧
      (∃ t ∈ w.m.trackers, t.reported = reported ∧ t.state = state ∧ t.nextAction = due) ∧
      ∀ t ∈ w.m.trackers, t.reported = reported ∧ t.state = state := by
  simp only [glimpse, Glimpse.mk.injEq] at seen
  obtain ⟨clock_eq, complete_eq, stopping_eq, sessions⟩ := seen
  obtain ⟨t, only, fields⟩ := List.map_eq_singleton_iff.mp sessions
  simp only [Prod.mk.injEq] at fields
  refine ⟨clock_eq, complete_eq, stopping_eq, ⟨t, by simp [only], fields⟩, ?_⟩
  intro other member
  rw [only, List.mem_singleton] at member
  rw [member]
  exact ⟨fields.1, fields.2.1⟩

end Example

/-- A session that rests when the download is done is woken at once. -/
theorem owing_sessions_awake_idle :
    ∃ w t, ReachableWithin watch (fun w => Created w.m) Ready w ∧ w.m.downloadComplete = true ∧
      t ∈ w.m.trackers ∧ t.reported = .reportedStarted ∧ t.state = .idle ∧ ¬ w.clock < t.nextAction := by
  have seen :
    (observe registration).map (fun w => (glimpse w, (watch w (.onDownloadComplete (seconds 1))).map glimpse)) =
      some (⟨0, false, false, [(.reportedStarted, .idle, seconds 1800)]⟩,
        some ⟨seconds 1, true, false, [(.reportedStarted, .idle, seconds 1)]⟩) := by
    decide +kernel
  obtain ⟨w, ran, both⟩ := Option.map_eq_some_iff.mp seen
  obtain ⟨before, later⟩ := Prod.mk.inj both
  obtain ⟨woken, moved, after⟩ := Option.map_eq_some_iff.mp later
  have early : ReachableWithin watch (fun w => Created w.m) Ready w := by
    refine (ReachableWithin.start _ ⟨_, _, _, _, rfl⟩).run ?_ ran
    intro state op member now same
    simp [registration, hearing, same] at member
  have ready : Ready w (.onDownloadComplete (seconds 1)) := by
    intro now _ t member
    obtain ⟨reported, state⟩ := (glimpse_session before).2.2.2.2 t member
    exact ⟨by rw [reported]; decide, fun flying => absurd (state.symm.trans flying) (by decide)⟩
  have reached := ReachableWithin.next w woken _ early ready moved
  obtain ⟨-, complete, going, ⟨t, member, owes, rests, -⟩, -⟩ := glimpse_session after
  refine ⟨woken, t, reached, complete, member, owes, rests, fun late => ?_⟩
  exact owing_sessions_awake woken reached complete going t member ⟨owes, rests, late⟩

/-- The late acknowledgement of `started` puts the session to sleep for half an hour. -/
theorem owing_session_sleeps :
    ∃ w t, Reachable watch (fun w => Created w.m) w ∧ w.m.downloadComplete = true ∧ w.m.stopping = false ∧
      t ∈ w.m.trackers ∧ t.reported = .reportedStarted ∧ t.state = .idle ∧ w.clock < t.nextAction := by
  have seen : (observe overtaken).map glimpse =
      some ⟨seconds 2, true, false, [(.reportedStarted, .idle, seconds 1802)]⟩ := by
    decide +kernel
  obtain ⟨w, ran, after⟩ := Option.map_eq_some_iff.mp seen
  obtain ⟨clock, complete, going, ⟨t, member, owes, rests, due⟩, -⟩ := glimpse_session after
  have reached : Reachable watch (fun w => Created w.m) w := (Reachable.start _ ⟨_, _, _, _, rfl⟩).run ran
  exact ⟨w, t, reached, complete, going, member, owes, rests, by rw [clock, due]; decide⟩

end TorrentPeer.TrackerManager
