import TorrentPeer.Runtime.TrackerIds

/-! How long a session waits after failures. `retries` counts the failures since the last reply
of any kind, so that the waiting grows only while connect requests stay unanswered. -/

namespace TorrentPeer

namespace Deed

def failed : Deed → Bool
  | .backedOff _ => true
  | .timedOut _ => true
  | _ => false

def accepted : Deed → Bool
  | .acknowledged _ _ => true
  | _ => false

def replied : Deed → Bool
  | .acknowledged _ _ => true
  | .connectAccepted _ _ => true
  | _ => false

def sent : Deed → Option Time
  | .connectSent now => some now
  | .announceSent _ _ now => some now
  | _ => none

end Deed

namespace TrackerManager

open TrackerSession Transition

def failuresSince (ends : Deed → Bool) (history : List Deed) : Nat :=
  history.foldl (fun count deed =>
    if ends deed = true then 0 else if deed.failed = true then count + 1 else count) 0

def lastSent (history : List Deed) : Option Time := (history.filterMap Deed.sent).getLast?

def backOff (failures : Nat) : Time := seconds (15 * 2 ^ min failures 8)

/-- The counter, the deadline of an open request and the delay after a failure are those of so
many failures. -/
structure Paced (failures : Nat) (t : TrackerSession) : Prop where
  retries : t.retries = min failures 8
  deadline : t.state = .connecting ∨ t.state = .announcing →
    ∃ now, lastSent t.history = some now ∧ t.nextAction = now + backOff failures
  delay : ∀ now, t.history.getLast? = some (.backedOff now) → t.nextAction = now + backOff failures

section Counting

variable {ends : Deed → Bool} {history : List Deed} {deed : Deed}

theorem failuresSince_note : failuresSince ends (history ++ [deed]) =
    if ends deed = true then 0 else if deed.failed = true then failuresSince ends history + 1
      else failuresSince ends history := by
  rw [failuresSince, List.foldl_append]
  rfl

theorem lastSent_note_none (silent : deed.sent = none) : lastSent (history ++ [deed]) = lastSent history := by
  rw [lastSent, List.filterMap_append, List.filterMap_cons_none silent, List.filterMap_nil, List.append_nil]
  rfl

theorem lastSent_note_some {now : Time} (sends : deed.sent = some now) :
    lastSent (history ++ [deed]) = some now := by
  rw [lastSent, List.filterMap_append, List.filterMap_cons_some sends, List.filterMap_nil]
  exact List.getLast?_concat

theorem failuresSince_replied_le (history : List Deed) :
    failuresSince Deed.replied history ≤ failuresSince Deed.accepted history := by
  induction history using List.reverseRecOn with
  | nil => exact Nat.le_refl 0
  | append_singleton history deed ih =>
    rw [failuresSince_note, failuresSince_note]
    cases deed with
    | backedOff now => exact Nat.succ_le_succ ih
    | timedOut now => exact Nat.succ_le_succ ih
    | acknowledged event now => exact Nat.le_refl 0
    | connectAccepted connectionId now => exact Nat.zero_le _
    | connectSent now => exact ih
    | announceSent event packet now => exact ih
    | downloadComplete now => exact ih
    | beginShutdown now => exact ih

end Counting

/-- What the code does: the row of failures ends with a reply of any kind. Announces are sent, and
a session rests, with the counter at zero. -/
structure Pacing (t : TrackerSession) : Prop where
  paced : Paced (failuresSince Deed.replied t.history) t
  calm : t.state = .connected ∨ t.state = .announcing ∨ t.state = .idle → t.retries = 0
  off : ∀ now, t.history.getLast? = some (.backedOff now) → t.state = .disconnected ∨ t.state = .resolving

section Moves

variable {m : TrackerManager} {t next : TrackerSession}

theorem responseTimeout_paced {failures : Nat} (paced : Paced failures t) : t.responseTimeout = backOff failures := by
  rw [responseTimeout, paced.retries]
  rfl

theorem failuresSince_other {deed : Deed} (history : List Deed) (silent : deed.replied = false)
    (fine : deed.failed = false) :
    failuresSince Deed.replied (history ++ [deed]) = failuresSince Deed.replied history := by
  rw [failuresSince_note, if_neg (by rw [silent]; decide), if_neg (by rw [fine]; decide)]

theorem Pacing.fail (pacing : Pacing t) (deed : Deed) (failed : deed.failed = true)
    (off : next.state = .disconnected) (counted : next.retries = min (t.retries + 1) 8)
    (noted : next.history = t.history ++ [deed])
    (delayed : ∀ now, deed = .backedOff now → next.nextAction = now + next.responseTimeout) : Pacing next := by
  have row : failuresSince Deed.replied next.history = failuresSince Deed.replied t.history + 1 := by
    have silent : deed.replied = false := by cases deed <;> first | rfl | cases failed
    rw [noted, failuresSince_note, if_neg (by rw [silent]; decide), if_pos failed]
  have retries : next.retries = min (failuresSince Deed.replied next.history) 8 := by
    rw [counted, row, pacing.paced.retries]
    omega
  refine ⟨⟨retries, ?_, ?_⟩, ?_, fun _ _ => Or.inl off⟩
  · intro open_
    rw [off] at open_
    rcases open_ with open_ | open_ <;> cases open_
  · intro now last
    rw [noted, List.getLast?_concat, Option.some.injEq] at last
    rw [delayed now last, responseTimeout, retries]
    rfl
  · intro open_
    rw [off] at open_
    rcases open_ with open_ | open_ | open_ <;> cases open_

theorem Pacing.send {now : Time} (pacing : Pacing t) (deed : Deed) (sends : deed.sent = some now)
    (calm : next.state = .announcing → t.retries = 0) (open_ : next.state = .connecting ∨ next.state = .announcing)
    (kept : next.retries = t.retries) (noted : next.history = t.history ++ [deed])
    (due : next.nextAction = now + t.responseTimeout) : Pacing next := by
  have silent : deed.replied = false := by cases deed <;> first | rfl | cases sends
  have fine : deed.failed = false := by cases deed <;> first | rfl | cases sends
  have row : failuresSince Deed.replied next.history = failuresSince Deed.replied t.history := by
    rw [noted, failuresSince_other _ silent fine]
  have last (time : Time) : next.history.getLast? ≠ some (.backedOff time) := by
    intro same
    rw [noted, List.getLast?_concat, Option.some.injEq] at same
    rw [same] at sends
    cases sends
  refine ⟨⟨?_, ?_, fun time same => absurd same (last time)⟩, ?_, fun time same => absurd same (last time)⟩
  · rw [row, kept]
    exact pacing.paced.retries
  · intro _
    refine ⟨now, ?_, ?_⟩
    · rw [noted]
      exact lastSent_note_some sends
    · rw [due, row, responseTimeout_paced pacing.paced]
  · intro state
    rw [kept]
    rcases open_ with connecting | announcing
    · rw [connecting] at state
      rcases state with state | state | state <;> cases state
    · exact calm announcing

theorem Pacing.reply (t : TrackerSession) (deed : Deed) (replied : deed.replied = true) (zero : next.retries = 0)
    (settled : next.state = .connected ∨ next.state = .idle ∨ next.state = .stopped)
    (noted : next.history = t.history ++ [deed]) : Pacing next := by
  have row : failuresSince Deed.replied next.history = 0 := by
    rw [noted, failuresSince_note, if_pos replied]
  have last (time : Time) : next.history.getLast? ≠ some (.backedOff time) := by
    intro same
    rw [noted, List.getLast?_concat, Option.some.injEq] at same
    rw [same] at replied
    cases replied
  refine ⟨⟨?_, ?_, fun time same => absurd same (last time)⟩, fun _ => zero, fun time same => absurd same (last time)⟩
  · rw [zero, row]
    rfl
  · intro open_
    rcases settled with state | state | state <;> rw [state] at open_ <;>
      rcases open_ with open_ | open_ <;> cases open_

theorem Pacing.heed (pacing : Pacing t) (deed : Deed) (silent : deed.replied = false) (fine : deed.failed = false)
    (unsent : deed.sent = none) (kept : next.retries = t.retries) (noted : next.history = t.history ++ [deed])
    (open_ : next.state = .connecting ∨ next.state = .announcing →
      (t.state = .connecting ∨ t.state = .announcing) ∧ next.nextAction = t.nextAction)
    (calm : next.state = .connected ∨ next.state = .announcing ∨ next.state = .idle →
      t.state = .connected ∨ t.state = .announcing ∨ t.state = .idle) : Pacing next := by
  have row : failuresSince Deed.replied next.history = failuresSince Deed.replied t.history := by
    rw [noted, failuresSince_other _ silent fine]
  have last (time : Time) : next.history.getLast? ≠ some (.backedOff time) := by
    intro same
    rw [noted, List.getLast?_concat, Option.some.injEq] at same
    rw [same] at fine
    cases fine
  refine ⟨⟨?_, ?_, fun time same => absurd same (last time)⟩, ?_, fun time same => absurd same (last time)⟩
  · rw [row, kept]
    exact pacing.paced.retries
  · intro state
    obtain ⟨before, same⟩ := open_ state
    obtain ⟨now, sent, due⟩ := pacing.paced.deadline before
    refine ⟨now, ?_, ?_⟩
    · rw [noted, lastSent_note_none unsent]
      exact sent
    · rw [same, row]
      exact due
  · intro state
    rw [kept]
    exact pacing.calm (calm state)

theorem Pacing.acknowledge (pacing : Pacing t) (waiting : t.state = .announcing) (now : Time)
    (interval leechers seeders : Nat) : Pacing (t.acknowledge now interval leechers seeders) := by
  have zero : t.retries = 0 := pacing.calm (Or.inr (Or.inl waiting))
  unfold TrackerSession.acknowledge
  dsimp only
  split
  · exact Pacing.reply t (.acknowledged t.inFlight now) rfl zero (Or.inr (Or.inr rfl)) rfl
  · exact Pacing.reply t (.acknowledged t.inFlight now) rfl rfl (Or.inr (Or.inl rfl)) rfl

theorem Pacing.move (pacing : Pacing t) (move : Move m t next) : Pacing next := by
  cases move with
  | stays => exact pacing
  | accepts connectionId now waiting small =>
    exact Pacing.reply t (.connectAccepted connectionId now) rfl rfl (Or.inl rfl) rfl
  | acknowledges now interval leechers seeders waiting =>
    exact pacing.acknowledge waiting now interval leechers seeders
  | looksUp off =>
    refine ⟨⟨pacing.paced.retries, ?_, pacing.paced.delay⟩, ?_, fun _ _ => Or.inr rfl⟩
    · rintro (state | state) <;> cases state
    · rintro (state | state | state) <;> cases state
  | connects lookup fd txn now off =>
    exact pacing.send (.connectSent now) rfl nofun (Or.inl rfl) rfl rfl rfl
  | announces txn packet now ready young carries =>
    exact pacing.send (.announceSent (m.pendingEvent t) packet now) rfl (fun _ => pacing.calm (Or.inl ready))
      (Or.inr rfl) rfl rfl rfl
  | backsOff lookup sock txn event now live =>
    refine pacing.fail (.backedOff now) rfl rfl rfl rfl ?_
    rintro time ⟨⟩
    rfl
  | timesOut now waiting => exact pacing.fail (.timedOut now) rfl rfl rfl rfl nofun
  | leaves deadline ready =>
    have live (time : Time) : t.history.getLast? ≠ some (.backedOff time) := by
      intro last
      rcases pacing.off time last with off | off <;> rw [off] at ready <;> rcases ready with ready | ready <;>
        cases ready
    refine ⟨⟨pacing.paced.retries, ?_, fun time last => absurd last (live time)⟩, ?_,
      fun time last => absurd last (live time)⟩
    · rintro (state | state) <;> cases state
    · rintro (state | state | state) <;> cases state

theorem Pacing.rouse (pacing : Pacing t) (now : Time) : Pacing (rouse now t) := by
  unfold TrackerManager.rouse
  dsimp only
  split
  · rename_i resting
    refine pacing.heed (.downloadComplete now) rfl rfl rfl rfl rfl ?_ id
    intro open_
    have same : t.state = .connecting ∨ t.state = .announcing := open_
    rw [show t.state = .idle from resting.1] at same
    rcases same with same | same <;> cases same
  · exact pacing.heed (.downloadComplete now) rfl rfl rfl rfl rfl (fun open_ => ⟨open_, rfl⟩) id

theorem Pacing.withdraw (pacing : Pacing t) (now : Time) : Pacing (withdraw now t) := by
  have heed {next : TrackerSession} (kept : next.retries = t.retries)
      (noted : next.history = t.history ++ [.beginShutdown now]) :=
        @Pacing.heed t next pacing (.beginShutdown now) rfl rfl rfl kept noted
  unfold TrackerManager.withdraw
  dsimp only
  split
  · exact heed rfl rfl nofun nofun
  · split
    · rename_i off
      refine heed rfl rfl ?_ id
      intro open_
      have same : t.state = .connecting ∨ t.state = .announcing := open_
      rw [show t.state = .disconnected from off] at same
      rcases same with same | same <;> cases same
    · rename_i resting
      exact heed rfl rfl nofun (fun _ => Or.inr (Or.inr resting))
    · rename_i waiting
      exact heed rfl rfl nofun (fun _ => Or.inr (Or.inl waiting))
    · exact heed rfl rfl (fun open_ => ⟨open_, rfl⟩) id

end Moves

theorem driven_pacing {m : TrackerManager} (driven : Driven m) : ∀ t ∈ m.trackers, Pacing t := by
  refine @driven_each (fun _ _ t => Pacing t) (fun _ _ _ pacing move => pacing.move move)
    (fun _ _ now _ pacing => pacing.rouse now) (fun _ _ now _ pacing => pacing.withdraw now) ?_ m driven
  intro address key
  exact ⟨⟨rfl, nofun, nofun⟩, nofun, nofun⟩

theorem Paced.retime {t : TrackerSession} {few many : Nat} (paced : Paced few t) (same : min few 8 = min many 8) :
    Paced many t := by
  have waits : backOff few = backOff many := by rw [backOff, backOff, same]
  exact ⟨same ▸ paced.retries, waits ▸ paced.deadline, waits ▸ paced.delay⟩

/-- In every run the counter, the deadlines and the delays of a session are those of the failures
since the last accepted announce, exactly when no connect reply has come in between, or eight
failures have followed the last one. -/
theorem back_off_until_announced (m : TrackerManager) (driven : Driven m) (t : TrackerSession)
    (member : t ∈ m.trackers) :
    Paced (failuresSince Deed.accepted t.history) t ↔
      failuresSince Deed.replied t.history = failuresSince Deed.accepted t.history ∨
        8 ≤ failuresSince Deed.replied t.history := by
  have paced := (driven_pacing driven t member).paced
  have fewer := failuresSince_replied_le t.history
  constructor
  · intro law
    have same : min (failuresSince Deed.replied t.history) 8 = min (failuresSince Deed.accepted t.history) 8 :=
      paced.retries.symm.trans law.retries
    omega
  · intro condition
    apply paced.retime
    omega

section Example

def unanswered : List Op :=
  [hearing [] 0, hearing [] 0, hearing [] (seconds 15), hearing [] (seconds 15), hearing [] (seconds 45),
    hearing [] (seconds 45)]

def halfAnswered : List Op :=
  [hearing [] 0, hearing [] 0, hearing [connectReply] 0, hearing [] (seconds 15),
    hearing [] (seconds 15), hearing [connectReply] (seconds 15), hearing [] (seconds 30),
    hearing [] (seconds 30), hearing [connectReply] (seconds 30), hearing [] (seconds 45),
    hearing [] (seconds 45), hearing [connectReply] (seconds 45)]

/-- What is looked at in the end. -/
structure Pace where
  accepted : Nat
  replied : Nat
  retries : Nat
  state : TrackerState
  sent : Option Time
  due : Time
  deriving DecidableEq

def pace (t : TrackerSession) : Pace :=
  ⟨failuresSince Deed.accepted t.history, failuresSince Deed.replied t.history, t.retries, t.state,
    lastSent t.history,
    t.nextAction⟩

theorem rounds_pace {ops : List Op} {end_ : Pace}
    (seen : (rounds ops).map (fun m => m.trackers.map pace) = some [end_]) :
    ∃ m t, Driven m ∧ t ∈ m.trackers ∧ pace t = end_ := by
  obtain ⟨m, ran, shown⟩ := Option.map_eq_some_iff.mp seen
  obtain ⟨t, only, same⟩ := List.map_eq_singleton_iff.mp shown
  exact ⟨m, t, rounds_driven ran, by simp [only], same⟩

end Example

/-- Two connect requests in a row time out, and the third has a minute. -/
theorem back_off_until_announced_unanswered :
    ∃ m t, Driven m ∧ t ∈ m.trackers ∧ failuresSince Deed.accepted t.history = 2 ∧ Paced 2 t := by
  have seen : (rounds unanswered).map (fun m => m.trackers.map pace) =
      some [⟨2, 2, 2, .connecting, some (seconds 45), seconds 105⟩] := by
    decide +kernel
  obtain ⟨m, t, driven, member, same⟩ := rounds_pace seen
  simp only [pace, Pace.mk.injEq] at same
  obtain ⟨accepted, replied, -⟩ := same
  have law := (back_off_until_announced m driven t member).mpr (Or.inl (replied.trans accepted.symm))
  rw [accepted] at law
  exact ⟨m, t, driven, member, accepted, law⟩

/-- A tracker that answers every connect request and no announce is asked again every fifteen
seconds: after three failures the counter is at zero. -/
theorem back_off_forgotten :
    ∃ m t, Driven m ∧ t ∈ m.trackers ∧ failuresSince Deed.accepted t.history = 3 ∧ t.retries = 0 ∧
      t.state = .announcing ∧ lastSent t.history = some (seconds 45) ∧ t.nextAction = seconds 45 + seconds 15 := by
  have seen : (rounds halfAnswered).map (fun m => m.trackers.map pace) =
      some [⟨3, 0, 0, .announcing, some (seconds 45), seconds 60⟩] := by
    decide +kernel
  obtain ⟨m, t, driven, member, same⟩ := rounds_pace seen
  simp only [pace, Pace.mk.injEq] at same
  obtain ⟨accepted, -, retries, state, sent, due⟩ := same
  exact ⟨m, t, driven, member, accepted, retries, state, sent, due⟩

end TrackerManager

end TorrentPeer
