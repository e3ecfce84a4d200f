import TorrentPeer.Runtime.AnnounceLaw
import TorrentPeer.Runtime.TrackerIds
import TorrentPeer.Runtime.Client

/-! Every session's history obeys the announce protocol, in every run of the manager. -/

namespace TorrentPeer.TrackerManager

open TrackerSession Transition

def reportedAs : Reported → Acked
  | .reportedNothing => .nothing
  | .reportedStarted => .started
  | .reportedCompleted => .completed

def Awaits (acked : Acked) : TrackerEvent → Prop
  | .eventStarted => acked = .nothing
  | .eventNone => acked = .started ∨ acked = .completed
  | .eventCompleted => acked = .started
  | .eventStopped => acked = .started ∨ acked = .completed

/-- The session's own fields say what its ledger says. -/
structure Agrees (acked : Acked) (stopping : Bool) (t : TrackerSession) : Prop where
  ended : acked = .stopped → t.state = .stopped
  reported : acked ≠ .stopped → acked = reportedAs t.reported
  gone : stopping = true → acked = .nothing → t.state = .stopped
  flying : t.state = .announcing → Awaits acked t.inFlight

def Lawful (complete stopping : Bool) (t : TrackerSession) : Prop :=
  ∃ acked, replay t.history = some ⟨acked, complete, stopping⟩ ∧ Agrees acked stopping t

section Moves

variable {complete stopping : Bool} {t next : TrackerSession}

theorem permits_awaits {acked : Acked} {event : TrackerEvent}
    (permitted : Ledger.Permits ⟨acked, complete, stopping⟩ event) : Awaits acked event := by
  cases event with
  | eventStarted => exact permitted.1
  | eventNone => exact permitted.1
  | eventCompleted => exact permitted.1
  | eventStopped => exact permitted.1

theorem Lawful.acknowledge (lawful : Lawful complete stopping t) (now : Time) (interval leechers seeders : Nat)
    (waiting : t.state = .announcing) : Lawful complete stopping (t.acknowledge now interval leechers seeders) := by
  obtain ⟨acked, replayed, agrees⟩ := lawful
  have awaits := agrees.flying waiting
  have here : acked ≠ .stopped := fun ended => by
    have state := agrees.ended ended
    rw [waiting] at state
    cases state
  have known := agrees.reported here
  have noted : ∀ after, Ledger.acknowledge ⟨acked, complete, stopping⟩ t.inFlight = some after →
      replay (t.history ++ [.acknowledged t.inFlight now]) = some after := by
    intro after taken
    rw [replay_note, replayed]
    exact taken
  cases flight : t.inFlight with
  | eventStarted =>
    rw [flight] at awaits noted
    refine ⟨.started, ?_, ?_⟩
    · simp only [TrackerSession.acknowledge, TrackerSession.note, flight, reduceCtorEq, if_false]
      exact noted _ (if_pos awaits)
    · simp only [TrackerSession.acknowledge, TrackerSession.note, flight, reduceCtorEq, if_false]
      exact ⟨by simp, fun _ => rfl, by simp, by simp⟩
  | eventNone =>
    rw [flight] at awaits noted
    refine ⟨acked, ?_, ?_⟩
    · simp only [TrackerSession.acknowledge, TrackerSession.note, flight, reduceCtorEq, if_false]
      exact noted _ (if_pos awaits)
    · simp only [TrackerSession.acknowledge, TrackerSession.note, flight, reduceCtorEq, if_false]
      refine ⟨fun ended => absurd ended here, fun _ => known, fun _ none_yet => ?_, by simp⟩
      rcases awaits with start | finish
      · rw [start] at none_yet
        cases none_yet
      · rw [finish] at none_yet
        cases none_yet
  | eventCompleted =>
    rw [flight] at awaits noted
    refine ⟨.completed, ?_, ?_⟩
    · simp only [TrackerSession.acknowledge, TrackerSession.note, flight, reduceCtorEq, if_false]
      exact noted _ (if_pos awaits)
    · simp only [TrackerSession.acknowledge, TrackerSession.note, flight, reduceCtorEq, if_false]
      exact ⟨by simp, fun _ => rfl, by simp, by simp⟩
  | eventStopped =>
    rw [flight] at awaits noted
    refine ⟨.stopped, ?_, ?_⟩
    · simp only [TrackerSession.acknowledge, TrackerSession.note, flight, if_true]
      exact noted _ (if_pos awaits)
    · simp only [TrackerSession.acknowledge, TrackerSession.note, flight, if_true]
      exact ⟨fun _ => rfl, fun alive => absurd rfl alive, by simp, by simp⟩

theorem Lawful.live (lawful : Lawful complete stopping t) (live : t.state ≠ .stopped)
    (history : next.history = t.history ∨ ∃ deed, next.history = t.history ++ [deed] ∧
      ∀ l : Ledger, l.allow deed = some l)
    (reported : next.reported = t.reported) (state : next.state ≠ .announcing) : Lawful complete stopping next := by
  obtain ⟨acked, replayed, agrees⟩ := lawful
  refine ⟨acked, ?_, ?_⟩
  · rcases history with same | ⟨deed, same, inert⟩
    · rw [same]
      exact replayed
    · rw [same, replay_note, replayed]
      exact inert _
  · refine ⟨fun ended => absurd (agrees.ended ended) live, ?_,
      fun stops none_yet => absurd (agrees.gone stops none_yet) live, fun flying => absurd flying state⟩
    rw [reported]
    exact agrees.reported

theorem Lawful.announce {m : TrackerManager} (lawful : Lawful m.downloadComplete m.stopping t) (txn : Nat)
    (packet : Bytes) (now deadline : Time) (ready : t.state = .connected) :
    Lawful m.downloadComplete m.stopping ({ t with
      transactionId := txn
      inFlight := m.pendingEvent t
      state := .announcing
      nextAction := deadline }.note (.announceSent (m.pendingEvent t) packet now)) := by
  obtain ⟨acked, replayed, agrees⟩ := lawful
  have live : t.state ≠ .stopped := by rw [ready]; decide
  have here : acked ≠ .stopped := fun ended => live (agrees.ended ended)
  have known := agrees.reported here
  have permitted : Ledger.Permits ⟨acked, m.downloadComplete, m.stopping⟩ (m.pendingEvent t) := by
    unfold pendingEvent
    split
    · rename_i stops
      refine ⟨?_, stops⟩
      cases held : t.reported with
      | reportedNothing =>
        rw [held] at known
        exact absurd (agrees.gone stops known) live
      | reportedStarted => exact Or.inl (by rw [known, held]; rfl)
      | reportedCompleted => exact Or.inr (by rw [known, held]; rfl)
    · rename_i runs
      have going := Bool.eq_false_iff.mpr runs
      split
      · rename_i held
        exact ⟨by rw [known, held]; rfl, going⟩
      · rename_i held
        split
        · rename_i complete
          exact ⟨by rw [known, held]; rfl, complete, going⟩
        · exact ⟨Or.inl (by rw [known, held]; rfl), going⟩
      · rename_i held
        exact ⟨Or.inr (by rw [known, held]; rfl), going⟩
  refine ⟨acked, ?_, ?_⟩
  · simp only [TrackerSession.note]
    rw [replay_note, replayed]
    exact if_pos permitted
  · exact ⟨fun ended => absurd ended here, fun _ => known,
      fun stops none_yet => absurd (agrees.gone stops none_yet) live, fun _ => permits_awaits permitted⟩

theorem Lawful.move {m : TrackerManager} (lawful : Lawful m.downloadComplete m.stopping t) (move : Move m t next) :
    Lawful m.downloadComplete m.stopping next := by
  cases move with
  | stays => exact lawful
  | accepts connectionId now waiting small =>
    exact lawful.live (by rw [waiting]; decide) (Or.inr ⟨_, rfl, fun _ => rfl⟩) rfl nofun
  | acknowledges now interval leechers seeders waiting => exact lawful.acknowledge now _ _ _ waiting
  | looksUp off => exact lawful.live (by rw [off]; decide) (Or.inl rfl) rfl nofun
  | connects lookup fd txn now off =>
    refine lawful.live ?_ (Or.inr ⟨_, rfl, fun _ => rfl⟩) rfl nofun
    rcases off with off | off <;> rw [off] <;> decide
  | announces txn packet now ready young carries =>
    exact lawful.announce txn packet now (now + t.responseTimeout) ready
  | backsOff lookup sock txn event now live => exact lawful.live live.1 (Or.inr ⟨_, rfl, fun _ => rfl⟩) rfl nofun
  | timesOut now waiting =>
    refine lawful.live ?_ (Or.inr ⟨_, rfl, fun _ => rfl⟩) rfl nofun
    rcases waiting with waiting | waiting <;> rw [waiting] <;> decide
  | leaves deadline ready =>
    refine lawful.live ?_ (Or.inl rfl) rfl nofun
    rcases ready with ready | ready <;> rw [ready] <;> decide

theorem Lawful.rouse (lawful : Lawful complete stopping t) (now : Time) : Lawful true stopping (rouse now t) := by
  obtain ⟨acked, replayed, agrees⟩ := lawful
  have noted : replay (t.history ++ [.downloadComplete now]) = some ⟨acked, true, stopping⟩ := by
    rw [replay_note, replayed]
    rfl
  unfold TrackerManager.rouse
  dsimp only [TrackerSession.note]
  split
  · exact ⟨acked, noted, agrees.ended, agrees.reported, agrees.gone, agrees.flying⟩
  · exact ⟨acked, noted, agrees.ended, agrees.reported, agrees.gone, agrees.flying⟩

theorem Lawful.withdraw (lawful : Lawful complete stopping t) (now : Time) :
    Lawful complete true (withdraw now t) := by
  obtain ⟨acked, replayed, agrees⟩ := lawful
  have noted : replay (t.history ++ [.beginShutdown now]) = some ⟨acked, complete, true⟩ := by
    rw [replay_note, replayed]
    rfl
  unfold TrackerManager.withdraw
  dsimp only [TrackerSession.note]
  split
  · exact ⟨acked, noted, fun _ => rfl, agrees.reported, fun _ _ => rfl, nofun⟩
  · rename_i known
    have someone : acked ≠ .nothing := by
      rintro rfl
      have same := agrees.reported (by decide)
      cases held : t.reported with
      | reportedNothing => exact known held
      | reportedStarted =>
        rw [held] at same
        cases same
      | reportedCompleted =>
        rw [held] at same
        cases same
    have alive : t.state ≠ .stopped → acked ≠ .stopped := fun live ended => live (agrees.ended ended)
    split
    · rename_i off
      exact ⟨acked, noted, agrees.ended, agrees.reported, fun _ none_yet => absurd none_yet someone,
        fun flying => agrees.flying flying⟩
    · rename_i resting
      exact ⟨acked, noted, fun ended => absurd ended (alive (by rw [resting]; decide)), agrees.reported,
        fun _ none_yet => absurd none_yet someone, nofun⟩
    · rename_i waiting
      exact ⟨acked, noted, fun ended => absurd ended (alive (by rw [waiting]; decide)), agrees.reported,
        fun _ none_yet => absurd none_yet someone, nofun⟩
    · exact ⟨acked, noted, agrees.ended, agrees.reported, fun _ none_yet => absurd none_yet someone,
        agrees.flying⟩

end Moves

theorem driven_lawful {m : TrackerManager} (driven : Driven m) :
    ∀ t ∈ m.trackers, Lawful m.downloadComplete m.stopping t :=
  @driven_each Lawful (fun _ _ _ lawful move => lawful.move move) (fun _ _ now _ lawful => lawful.rouse now)
    (fun _ _ now _ lawful => lawful.withdraw now)
    (fun _ _ => ⟨.nothing, rfl, nofun, fun _ => rfl, nofun, nofun⟩) m driven

section Stopping

variable {m : TrackerManager} {t next : TrackerSession}

theorem move_history (move : Move m t next) : t.history <+: next.history := by
  cases move with
  | stays => exact List.prefix_refl _
  | looksUp off => exact List.prefix_refl _
  | leaves deadline ready => exact List.prefix_refl _
  | acknowledges now interval leechers seeders waiting =>
    unfold TrackerSession.acknowledge
    dsimp only [TrackerSession.note]
    split <;> exact List.prefix_append _ _
  | _ => exact List.prefix_append _ _

theorem move_stopped (move : Move m t next) (ended : t.state = .stopped) : next = t := by
  cases move with
  | stays => rfl
  | accepts connectionId now waiting small => rw [ended] at waiting; cases waiting
  | acknowledges now interval leechers seeders waiting => rw [ended] at waiting; cases waiting
  | looksUp off => rw [ended] at off; cases off
  | connects lookup fd txn now off => rw [ended] at off; rcases off with off | off <;> cases off
  | announces txn packet now ready young carries => rw [ended] at ready; cases ready
  | backsOff lookup sock txn event now live => exact absurd ended live.1
  | timesOut now waiting => rw [ended] at waiting; rcases waiting with waiting | waiting <;> cases waiting
  | leaves deadline ready => rw [ended] at ready; rcases ready with ready | ready <;> cases ready

theorem move_stops (move : Move m t next) (live : t.state ≠ .stopped) (ends : next.state = .stopped) :
    ∃ now, next.history = t.history ++ [.acknowledged .eventStopped now] := by
  cases move with
  | stays => exact absurd ends live
  | acknowledges now interval leechers seeders waiting =>
    unfold TrackerSession.acknowledge at ends ⊢
    dsimp only [TrackerSession.note] at ends ⊢
    split at ends
    · rename_i flight
      rw [if_pos flight]
      exact ⟨now, by rw [flight]⟩
    · cases ends
  | _ => cases ends

/-- One call, seen from one session: `stopped` is entered only by its acknowledgement or by a
shutdown before anything was acknowledged, and is never left. -/
def Ends (op : Op) (t after : TrackerSession) : Prop :=
  (t.state = .stopped → after.state = .stopped) ∧
    (after.state = .stopped → t.state = .stopped ∨
      (∃ before now, t.history <+: before ∧ after.history = before ++ [.acknowledged .eventStopped now]) ∨
      (∃ now, op = .beginShutdown now) ∧ acks t.history = [])

theorem moves_end {middle : TrackerSession} (op : Op) (first : Move m t middle) (second : Move m middle next) :
    Ends op t next := by
  refine ⟨fun ended => ?_, fun ends => ?_⟩
  · rw [move_stopped second (by rw [move_stopped first ended]; exact ended), move_stopped first ended]
    exact ended
  · by_cases live : t.state = .stopped
    · exact Or.inl live
    · refine Or.inr (Or.inl ?_)
      by_cases early : middle.state = .stopped
      · obtain ⟨now, history⟩ := move_stops first live early
        rw [move_stopped second early]
        exact ⟨t.history, now, List.prefix_refl _, history⟩
      · obtain ⟨now, history⟩ := move_stops second early ends
        exact ⟨middle.history, now, move_history first, history⟩

theorem rouse_ends (now : Time) : Ends (.onDownloadComplete now) t (rouse now t) := by
  have same : (rouse now t).state = t.state := by
    unfold rouse
    dsimp only [TrackerSession.note]
    split <;> rfl
  exact ⟨fun ended => same.trans ended, fun ends => Or.inl (same.symm.trans ends)⟩

theorem withdraw_ends {complete stopping : Bool} (lawful : Lawful complete stopping t) (now : Time) :
    Ends (.beginShutdown now) t (withdraw now t) := by
  unfold withdraw
  dsimp only [TrackerSession.note]
  split
  · rename_i silent
    refine ⟨fun _ => rfl, fun _ => ?_⟩
    obtain ⟨acked, replayed, agrees⟩ := lawful
    by_cases ended : acked = .stopped
    · exact Or.inl (agrees.ended ended)
    · have told := (replay_told replayed).spoken
      rw [agrees.reported ended, silent] at told
      exact Or.inr (Or.inr ⟨⟨now, rfl⟩, told⟩)
  · split
    · rename_i off
      exact ⟨fun ended => ended, fun ends => Or.inl ends⟩
    · rename_i resting
      exact ⟨fun ended => absurd (resting.symm.trans ended) (by decide), nofun⟩
    · rename_i waiting
      exact ⟨fun ended => absurd (waiting.symm.trans ended) (by decide), nofun⟩
    · exact ⟨fun ended => ended, fun ends => Or.inl ends⟩

theorem perform_ends {next : TrackerManager} {op : Op} (driven : Driven m) (performed : m.perform op = some next) :
    List.Forall₂ (Ends op) m.trackers next.trackers := by
  cases op with
  | tick revents envs stats now =>
    simp only [perform] at performed
    split at performed
    · rename_i after fresh ticked
      cases performed
      apply (tick_moves ticked).2.2.imp
      intro t after moves
      obtain ⟨middle, first, second⟩ := moves
      exact moves_end _ first second
    · cases performed
  | onDownloadComplete now =>
    cases performed
    simp only [onDownloadComplete, List.forall₂_map_right_iff]
    exact List.forall₂_same.mpr (fun t _ => rouse_ends now)
  | beginShutdown now =>
    cases performed
    simp only [beginShutdown, List.forall₂_map_right_iff]
    exact List.forall₂_same.mpr (fun t member => withdraw_ends (driven_lawful driven t member) now)

end Stopping

def Timely (before : List Deed) (event : TrackerEvent) : Prop :=
  (event = .eventCompleted → (∃ now, .downloadComplete now ∈ before) ∧ .eventCompleted ∉ acks before) ∧
  (event = .eventStopped → (∃ now, .beginShutdown now ∈ before) ∧ .eventStarted ∈ acks before) ∧
  ((∃ now, .beginShutdown now ∈ before) → event = .eventStopped)

theorem permits_timely {before : List Deed} {l : Ledger} {event : TrackerEvent} (told : Told before l)
    (permitted : l.Permits event) : Timely before event := by
  have spoken := told.spoken
  refine ⟨?_, ?_, ?_⟩
  · rintro rfl
    obtain ⟨acked, complete, -⟩ := permitted
    rw [acked] at spoken
    obtain ⟨quiet, shape⟩ := spoken
    exact ⟨told.complete.mp complete, by simp [shape]⟩
  · rintro rfl
    obtain ⟨acked, stops⟩ := permitted
    refine ⟨told.stopping.mp stops, ?_⟩
    rcases acked with acked | acked
    · rw [acked] at spoken
      obtain ⟨quiet, shape⟩ := spoken
      simp [shape]
    · rw [acked] at spoken
      obtain ⟨quiet, after, shape⟩ := spoken
      simp [shape]
  · intro begun
    have stops := told.stopping.mpr begun
    cases event with
    | eventStopped => rfl
    | eventStarted => exact absurd (permitted.2.symm.trans stops) (by decide)
    | eventNone => exact absurd (permitted.2.symm.trans stops) (by decide)
    | eventCompleted => exact absurd (permitted.2.2.symm.trans stops) (by decide)

theorem Lawful.timely {complete stopping : Bool} {t : TrackerSession} (lawful : Lawful complete stopping t)
    {before after : List Deed} {event : TrackerEvent} {packet : Bytes} {now : Time}
    (split : t.history = before ++ .announceSent event packet now :: after) : Timely before event := by
  obtain ⟨acked, replayed, -⟩ := lawful
  rw [split] at replayed
  obtain ⟨earlier, told, permitted⟩ := replay_sent replayed
  exact permits_timely told permitted

theorem Lawful.never_completed {stopping : Bool} {t : TrackerSession} (lawful : Lawful false stopping t)
    (packet : Bytes) (now : Time) : .announceSent .eventCompleted packet now ∉ t.history := by
  intro member
  obtain ⟨before, after, split⟩ := List.append_of_mem member
  obtain ⟨⟨done, here⟩, -⟩ := (lawful.timely split).1 rfl
  obtain ⟨acked, replayed, -⟩ := lawful
  have complete : false = true := (replay_told replayed).complete.mpr ⟨done, by simp [split, here]⟩
  cases complete

/-- In every run the acknowledged announces of each session are the beginning of a word of the
protocol, every announce was timely when it was sent, and `stopped` is entered only as it may be
and never left. A session that starts with all pieces sends no `completed` at all. -/
theorem announces_lawful (m : TrackerManager) (driven : Driven m) :
    (∀ t ∈ m.trackers, (∃ word, Word word ∧ acks t.history <+: word) ∧
      ∀ before event packet now after, t.history = before ++ .announceSent event packet now :: after →
        Timely before event) ∧
    (∀ op next, m.perform op = some next → List.Forall₂ (Ends op) m.trackers next.trackers) ∧
    (∀ sha1 kernel torrent client, Client.Seeds sha1 kernel torrent client →
      ∀ t ∈ client.trackers.trackers, ∀ packet now, .announceSent .eventCompleted packet now ∉ t.history) := by
  refine ⟨fun t member => ?_, fun op next performed => perform_ends driven performed, ?_⟩
  · have lawful := driven_lawful driven t member
    refine ⟨?_, fun before event packet now after split => lawful.timely split⟩
    obtain ⟨acked, replayed, -⟩ := lawful
    exact (replay_told replayed).spoken.word
  · intro sha1 kernel torrent client seeds t member
    obtain ⟨-, under, incomplete⟩ := Client.seeds_never_complete seeds
    have lawful := driven_lawful under t member
    rw [incomplete] at lawful
    exact lawful.never_completed

section Example

def lifetime : List Op :=
  [hearing [] 0, hearing [] 0, hearing [connectReply] 0, hearing [announceReply] 0, .onDownloadComplete (seconds 1),
    hearing [] (seconds 2), hearing [] (seconds 2), hearing [connectReply] (seconds 2),
    hearing [announceReply] (seconds 2), .beginShutdown (seconds 3), hearing [] (seconds 3),
    hearing [announceReply] (seconds 3)]

end Example

theorem announces_lawful_lifetime :
    ∃ m, Driven m ∧ m.trackers.map (fun t => (t.state, acks t.history)) =
        [(.stopped, [.eventStarted, .eventCompleted, .eventStopped])] ∧
      ∀ t ∈ m.trackers, ∃ word, Word word ∧ acks t.history <+: word := by
  have seen : (rounds lifetime).map (fun m => m.trackers.map (fun t => (t.state, acks t.history))) =
      some [(.stopped, [.eventStarted, .eventCompleted, .eventStopped])] := by
    decide +kernel
  obtain ⟨m, ran, shown⟩ := Option.map_eq_some_iff.mp seen
  have driven := rounds_driven ran
  exact ⟨m, driven, shown, fun t member => ((announces_lawful m driven).1 t member).1⟩

end TorrentPeer.TrackerManager
