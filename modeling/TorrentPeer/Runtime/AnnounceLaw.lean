import TorrentPeer.Runtime.TrackerRuns

/-! The announce protocol by itself: which event may be sent when, and what an acknowledgement
changes. Every session's history obeys it. -/

namespace TorrentPeer.TrackerManager

open TrackerSession Transition

inductive Acked where
  | nothing
  | started
  | completed
  | stopped
  deriving DecidableEq

/-- What a tracker has acknowledged, and what has been asked of the manager. -/
structure Ledger where
  acked : Acked := .nothing
  complete : Bool := false
  stopping : Bool := false
  deriving DecidableEq

namespace Ledger

def Registered (l : Ledger) : Prop := l.acked = .started ∨ l.acked = .completed

instance (l : Ledger) : Decidable l.Registered := inferInstanceAs (Decidable (_ ∨ _))

def Permits (l : Ledger) : TrackerEvent → Prop
  | .eventStarted => l.acked = .nothing ∧ l.stopping = false
  | .eventNone => l.Registered ∧ l.stopping = false
  | .eventCompleted => l.acked = .started ∧ l.complete = true ∧ l.stopping = false
  | .eventStopped => l.Registered ∧ l.stopping = true

instance (l : Ledger) (event : TrackerEvent) : Decidable (l.Permits event) := by
  cases event <;> exact inferInstanceAs (Decidable (_ ∧ _))

def acknowledge (l : Ledger) : TrackerEvent → Option Ledger
  | .eventStarted => if l.acked = .nothing then some { l with acked := .started } else none
  | .eventNone => if l.Registered then some l else none
  | .eventCompleted => if l.acked = .started then some { l with acked := .completed } else none
  | .eventStopped => if l.Registered then some { l with acked := .stopped } else none

def allow (l : Ledger) : Deed → Option Ledger
  | .announceSent event _ _ => if l.Permits event then some l else none
  | .acknowledged event _ => l.acknowledge event
  | .downloadComplete _ => some { l with complete := true }
  | .beginShutdown _ => some { l with stopping := true }
  | _ => some l

end Ledger

def replay (history : List Deed) : Option Ledger := run Ledger.allow {} history

def acks (history : List Deed) : List TrackerEvent :=
  history.filterMap (fun deed => match deed with
    | .acknowledged event _ => some event
    | _ => none)

section Replay

variable {history : List Deed} {l next : Ledger}

theorem replay_note (deed : Deed) : replay (history ++ [deed]) = (replay history).bind (fun l => l.allow deed) := by
  rw [replay, run_append]
  refine congrArg _ (funext (fun l => ?_))
  simp only [run]
  cases l.allow deed <;> rfl

theorem acks_note (deed : Deed) : acks (history ++ [deed]) = acks history ++ acks [deed] := by
  rw [acks, List.filterMap_append]
  rfl

def Begun (events : List TrackerEvent) : Prop :=
  ∃ quiet, events = .eventStarted :: List.replicate quiet .eventNone

def Finished (events : List TrackerEvent) : Prop :=
  ∃ quiet after, events = .eventStarted :: List.replicate quiet .eventNone ++
    .eventCompleted :: List.replicate after .eventNone

def Spoken : Acked → List TrackerEvent → Prop
  | .nothing, events => events = []
  | .started, events => Begun events
  | .completed, events => Finished events
  | .stopped, events => ∃ before, (Begun before ∨ Finished before) ∧ events = before ++ [.eventStopped]

theorem Spoken.quiet {events : List TrackerEvent} (registered : l.Registered) (spoken : Spoken l.acked events) :
    Spoken l.acked (events ++ [.eventNone]) := by
  rcases registered with here | here
  · rw [here] at spoken ⊢
    obtain ⟨quiet, shape⟩ := spoken
    exact ⟨quiet + 1, by rw [shape, List.replicate_succ', List.cons_append]⟩
  · rw [here] at spoken ⊢
    obtain ⟨quiet, after, shape⟩ := spoken
    exact ⟨quiet, after + 1, by simp [shape, List.replicate_succ']⟩

theorem acknowledge_spoken {events : List TrackerEvent} {event : TrackerEvent} (spoken : Spoken l.acked events)
    (taken : l.acknowledge event = some next) : Spoken next.acked (events ++ [event]) := by
  cases event with
  | eventNone =>
    simp only [Ledger.acknowledge, Option.ite_none_right_eq_some, Option.some.injEq] at taken
    rw [← taken.2]
    exact spoken.quiet taken.1
  | eventStarted =>
    simp only [Ledger.acknowledge, Option.ite_none_right_eq_some, Option.some.injEq] at taken
    obtain ⟨here, same⟩ := taken
    rw [here] at spoken
    rw [← same, show events = [] from spoken]
    exact ⟨0, rfl⟩
  | eventCompleted =>
    simp only [Ledger.acknowledge, Option.ite_none_right_eq_some, Option.some.injEq] at taken
    obtain ⟨here, same⟩ := taken
    rw [here] at spoken
    obtain ⟨quiet, shape⟩ := spoken
    rw [← same, shape]
    exact ⟨quiet, 0, rfl⟩
  | eventStopped =>
    simp only [Ledger.acknowledge, Option.ite_none_right_eq_some, Option.some.injEq] at taken
    obtain ⟨here, same⟩ := taken
    rw [← same]
    refine ⟨events, ?_, rfl⟩
    rcases here with here | here
    · rw [here] at spoken
      exact Or.inl spoken
    · rw [here] at spoken
      exact Or.inr spoken

/-- What a replayed history says about its ledger. -/
structure Told (history : List Deed) (l : Ledger) : Prop where
  spoken : Spoken l.acked (acks history)
  complete : l.complete = true ↔ ∃ now, .downloadComplete now ∈ history
  stopping : l.stopping = true ↔ ∃ now, .beginShutdown now ∈ history

theorem Told.allow (told : Told history l) {deed : Deed} (allowed : l.allow deed = some next) :
    Told (history ++ [deed]) next := by
  cases deed with
  | acknowledged event now =>
    have kept : next.complete = l.complete ∧ next.stopping = l.stopping := by
      cases event <;> simp only [Ledger.allow, Ledger.acknowledge, Option.ite_none_right_eq_some,
        Option.some.injEq] at allowed <;> simp [← allowed.2]
    refine ⟨?_, ?_, ?_⟩
    · rw [acks_note]
      exact acknowledge_spoken told.spoken allowed
    · rw [kept.1, told.complete]
      simp
    · rw [kept.2, told.stopping]
      simp
  | announceSent event packet now =>
    simp only [Ledger.allow, Option.ite_none_right_eq_some, Option.some.injEq] at allowed
    rw [← allowed.2]
    exact ⟨by simpa [acks_note, acks] using told.spoken, by simpa using told.complete, by simpa using told.stopping⟩
  | downloadComplete now =>
    cases allowed
    exact ⟨by simpa [acks_note, acks] using told.spoken, by simp, by simpa using told.stopping⟩
  | beginShutdown now =>
    cases allowed
    exact ⟨by simpa [acks_note, acks] using told.spoken, by simpa using told.complete, by simp⟩
  | _ =>
    cases allowed
    exact ⟨by simpa [acks_note, acks] using told.spoken, by simpa using told.complete, by simpa using told.stopping⟩

theorem replay_told (replayed : replay history = some l) : Told history l := by
  induction history using List.reverseRecOn generalizing l with
  | nil =>
    cases replayed
    exact ⟨rfl, by simp, by simp⟩
  | append_singleton history deed ih =>
    rw [replay_note, Option.bind_eq_some_iff] at replayed
    obtain ⟨earlier, before, allowed⟩ := replayed
    exact (ih before).allow allowed

theorem replay_sent {before after : List Deed} {event : TrackerEvent} {packet : Bytes} {now : Time}
    (replayed : replay (before ++ .announceSent event packet now :: after) = some l) :
    ∃ earlier, Told before earlier ∧ earlier.Permits event := by
  rw [replay, run_append, Option.bind_eq_some_iff] at replayed
  obtain ⟨earlier, reached, onward⟩ := replayed
  simp only [run, Ledger.allow, Option.bind_eq_some_iff, Option.ite_none_right_eq_some] at onward
  obtain ⟨-, ⟨permitted, -⟩, -⟩ := onward
  exact ⟨earlier, replay_told reached, permitted⟩

end Replay

def Word (events : List TrackerEvent) : Prop :=
  ∃ (quiet after : Nat) (completes stops : Bool),
    events = .eventStarted :: List.replicate quiet .eventNone ++
      (if completes = true then .eventCompleted :: List.replicate after .eventNone else []) ++
      (if stops = true then [.eventStopped] else [])

theorem Spoken.word {acked : Acked} {events : List TrackerEvent} (spoken : Spoken acked events) :
    ∃ word, Word word ∧ events <+: word := by
  cases acked with
  | nothing => exact ⟨[.eventStarted], ⟨0, 0, false, false, rfl⟩, by rw [show events = [] from spoken]; simp⟩
  | started =>
    obtain ⟨quiet, shape⟩ := spoken
    exact ⟨events, ⟨quiet, 0, false, false, by simp [shape]⟩, List.prefix_refl _⟩
  | completed =>
    obtain ⟨quiet, after, shape⟩ := spoken
    exact ⟨events, ⟨quiet, after, true, false, by simp [shape]⟩, List.prefix_refl _⟩
  | stopped =>
    obtain ⟨before, ⟨quiet, shape⟩ | ⟨quiet, after, shape⟩, ends⟩ := spoken
    · exact ⟨events, ⟨quiet, 0, false, true, by simp [ends, shape]⟩, List.prefix_refl _⟩
    · exact ⟨events, ⟨quiet, after, true, true, by simp [ends, shape]⟩, List.prefix_refl _⟩

end TorrentPeer.TrackerManager
