import TorrentPeer.Runtime.TrackerRuns
import TorrentPeer.Runtime.Custody

/-! Connection ids: an announce goes out on an open socket, under the id of the last connect
reply, within a minute of it. -/

namespace TorrentPeer.TrackerManager

open TrackerSession BigEndian Transition

def Freshest (history : List Deed) (connectionId : Nat) (received : Time) : Prop :=
  ∃ before after, history = before ++ .connectAccepted connectionId received :: after ∧
    ∀ deed ∈ after, (∀ now, deed ≠ .connectSent now) ∧ ∀ other now, deed ≠ .connectAccepted other now

/-- Every announce carries the id of the reply that was the freshest, and is under a minute
younger. -/
def Sends (history : List Deed) : Prop :=
  ∀ before event packet now after, history = before ++ .announceSent event packet now :: after →
    ∃ connectionId received, Freshest before connectionId received ∧ readBe64 packet = connectionId ∧
      now - received < seconds 60

section History

variable {history : List Deed}

theorem Freshest.accepted (connectionId : Nat) (now : Time) :
    Freshest (history ++ [.connectAccepted connectionId now]) connectionId now :=
  ⟨history, [], rfl, by simp⟩

theorem Freshest.later {connectionId : Nat} {received : Time} (fresh : Freshest history connectionId received)
    (deed : Deed) (other : (∀ now, deed ≠ .connectSent now) ∧ ∀ other now, deed ≠ .connectAccepted other now) :
    Freshest (history ++ [deed]) connectionId received := by
  obtain ⟨before, after, split, none_since⟩ := fresh
  refine ⟨before, after ++ [deed], by rw [split, List.append_assoc, List.cons_append], ?_⟩
  intro one member
  rcases List.mem_append.mp member with old | new
  · exact none_since one old
  · rw [List.mem_singleton.mp new]
    exact other

theorem append_last_split {α : Type} {items before after : List α} {last item : α}
    (same : items ++ [last] = before ++ item :: after) :
    (items = before ∧ last = item) ∨ ∃ rest, items = before ++ item :: rest := by
  rcases List.eq_nil_or_concat after with empty | ⟨rest, final, shape⟩
  · rw [empty] at same
    obtain ⟨front, back⟩ := List.append_inj' same rfl
    exact Or.inl ⟨front, List.singleton_inj.mp back⟩
  · rw [shape, List.concat_eq_append, ← List.cons_append, ← List.append_assoc] at same
    exact Or.inr ⟨rest, (List.append_inj' same rfl).1⟩

theorem Sends.note (sends : Sends history) (deed : Deed)
    (fits : ∀ event packet now, deed = .announceSent event packet now →
      ∃ connectionId received, Freshest history connectionId received ∧ readBe64 packet = connectionId ∧
        now - received < seconds 60) : Sends (history ++ [deed]) := by
  intro before event packet now after split
  rcases append_last_split split with ⟨here, last⟩ | ⟨rest, earlier⟩
  · rw [← here]
    exact fits event packet now last
  · exact sends before event packet now rest earlier

end History

structure Grounded (t : TrackerSession) : Prop where
  opened : t.state = .connecting ∨ t.state = .connected ∨ t.state = .announcing ∨ t.state = .idle → t.sock ≠ none
  looking : t.state = .resolving → t.lookup = true
  reply : t.state = .connected ∨ t.state = .announcing ∨ t.state = .idle →
    Freshest t.history t.connectionId t.connectedAt ∧ t.connectionId < 2 ^ 64
  sends : Sends t.history

section Moves

variable {t next : TrackerSession}

theorem Grounded.off (off : next.state = .disconnected ∨ next.state = .stopped) (sends : Sends next.history) :
    Grounded next := by
  refine ⟨?_, ?_, ?_, sends⟩
  · rintro (state | state | state | state) <;> simp [state] at off
  · intro state
    simp [state] at off
  · rintro (state | state | state) <;> simp [state] at off

theorem acknowledge_stopped (stopped : t.inFlight = .eventStopped) (now : Time) (interval leechers seeders : Nat) :
    (t.acknowledge now interval leechers seeders).state = .stopped := by
  simp only [TrackerSession.acknowledge, TrackerSession.note, stopped, if_true]

theorem Grounded.acknowledge (grounded : Grounded t) (now : Time) (interval leechers seeders : Nat)
    (waiting : t.state = .announcing) : Grounded (t.acknowledge now interval leechers seeders) := by
  have sends : Sends (t.history ++ [.acknowledged t.inFlight now]) := grounded.sends.note _ (by simp)
  obtain ⟨fresh, small⟩ := grounded.reply (Or.inr (Or.inl waiting))
  unfold TrackerSession.acknowledge
  dsimp only [TrackerSession.note]
  split
  · exact Grounded.off (Or.inr rfl) sends
  · refine ⟨fun _ => grounded.opened (Or.inr (Or.inr (Or.inl waiting))), nofun, fun _ => ⟨?_, small⟩, sends⟩
    exact fresh.later _ (by simp)

theorem Grounded.move {m : TrackerManager} (grounded : Grounded t) (move : Move m t next) : Grounded next := by
  cases move with
  | stays => exact grounded
  | accepts connectionId now waiting small =>
    refine ⟨fun _ => grounded.opened (Or.inl waiting), nofun, fun _ => ⟨Freshest.accepted _ _, small⟩, ?_⟩
    exact grounded.sends.note _ (by simp)
  | acknowledges now interval leechers seeders waiting => exact grounded.acknowledge now _ _ _ waiting
  | looksUp off =>
    exact ⟨by simp, fun _ => rfl, by simp, grounded.sends⟩
  | connects lookup fd txn now off =>
    refine ⟨fun _ => Option.some_ne_none fd, nofun, ?_, grounded.sends.note _ (by simp)⟩
    rintro (state | state | state) <;> cases state
  | announces txn packet now ready young carries =>
    obtain ⟨fresh, small⟩ := grounded.reply (Or.inl ready)
    refine ⟨fun _ => grounded.opened (Or.inr (Or.inl ready)), nofun,
      fun _ => ⟨fresh.later _ (by simp), small⟩, ?_⟩
    refine grounded.sends.note _ ?_
    intro event sent at_ same
    cases same
    exact ⟨t.connectionId, t.connectedAt, fresh, carries small, young⟩
  | backsOff lookup sock txn event now live =>
    exact Grounded.off (Or.inl rfl) (grounded.sends.note _ (by simp))
  | timesOut now waiting => exact Grounded.off (Or.inl rfl) (grounded.sends.note _ (by simp))
  | leaves deadline ready => exact Grounded.off (Or.inl rfl) grounded.sends

theorem Grounded.note (grounded : Grounded t) (deed : Deed)
    (other : (∀ now, deed ≠ .connectSent now) ∧ (∀ other now, deed ≠ .connectAccepted other now) ∧
      ∀ event packet now, deed ≠ .announceSent event packet now) : Grounded (t.note deed) := by
  refine ⟨grounded.opened, grounded.looking, ?_, ?_⟩
  · intro state
    obtain ⟨fresh, small⟩ := grounded.reply state
    exact ⟨fresh.later deed ⟨other.1, other.2.1⟩, small⟩
  · exact grounded.sends.note deed (fun event packet now same => absurd same (other.2.2 event packet now))

theorem Grounded.rouse (grounded : Grounded t) (now : Time) : Grounded (rouse now t) := by
  have noted := grounded.note (.downloadComplete now) (by simp)
  unfold TrackerManager.rouse
  dsimp only
  split
  · exact ⟨noted.opened, noted.looking, noted.reply, noted.sends⟩
  · exact noted

theorem Grounded.withdraw (grounded : Grounded t) (now : Time) : Grounded (withdraw now t) := by
  have noted := grounded.note (.beginShutdown now) (by simp)
  unfold TrackerManager.withdraw
  dsimp only
  split
  · exact Grounded.off (Or.inr rfl) noted.sends
  · split
    · rename_i off
      exact Grounded.off (Or.inl off) noted.sends
    · rename_i resting
      exact ⟨fun _ => noted.opened (Or.inr (Or.inr (Or.inr resting))), nofun,
        fun _ => noted.reply (Or.inr (Or.inr resting)), noted.sends⟩
    · rename_i waiting
      exact ⟨fun _ => noted.opened (Or.inr (Or.inr (Or.inl waiting))), nofun,
        fun _ => noted.reply (Or.inr (Or.inl waiting)), noted.sends⟩
    · exact noted

end Moves

theorem driven_grounded {m : TrackerManager} (driven : Driven m) : ∀ t ∈ m.trackers, Grounded t :=
  @driven_each (fun _ _ t => Grounded t) (fun _ _ _ grounded move => grounded.move move)
    (fun _ _ now _ grounded => grounded.rouse now) (fun _ _ now _ grounded => grounded.withdraw now)
    (fun _ _ => Grounded.off (Or.inl rfl) (by intro before event packet now after split; simp at split))
    m driven

/-- In every run each announce went out under the id of the freshest connect reply, less than a
minute after it; and the socket, `connected_at` and the lookup are what the state needs. -/
theorem announces_under_live_id (m : TrackerManager) (driven : Driven m) (t : TrackerSession)
    (member : t ∈ m.trackers) :
    (∀ before event packet now after, t.history = before ++ .announceSent event packet now :: after →
      ∃ connectionId received, Freshest before connectionId received ∧ readBe64 packet = connectionId ∧
        now - received < seconds 60) ∧
    (t.state = .connecting ∨ t.state = .connected ∨ t.state = .announcing ∨ t.state = .idle → t.sock ≠ none) ∧
    (t.state = .connected ∨ t.state = .announcing ∨ t.state = .idle →
      Freshest t.history t.connectionId t.connectedAt) ∧
    (t.state = .resolving → t.lookup = true) := by
  have grounded := driven_grounded driven t member
  exact ⟨grounded.sends, grounded.opened, fun state => (grounded.reply state).1, grounded.looking⟩

section Example

def announced : TorrentFile := { Session.oneByte with announceList := [[ascii "udp://t:1/announce"]] }

/-- A tick in which the lookup is done, every send succeeds and the given datagrams arrive. -/
def hearing (datagrams : List Datagram) (now : Time) : Op :=
  .tick [pollIn] (fun _ => ⟨datagrams, .resolved, some 9, 5, true, now, now, now, now⟩) ⟨0, 0, 1⟩ now

def connectReply : Datagram := .data (be32 0 ++ be32 5 ++ be64 77)

def announceReply : Datagram := .data (be32 1 ++ be32 5 ++ be32 1800 ++ be32 0 ++ be32 0)

def rounds (ops : List Op) : Option TrackerManager :=
  run perform (create announced (List.replicate 20 7) 6881 1) ops

theorem rounds_driven {ops : List Op} {m : TrackerManager} (ran : rounds ops = some m) : Driven m :=
  (Reachable.start _ ⟨_, _, _, _, rfl⟩).run ran

end Example

/-- The lookup, the connect request and, on the reply, the first announce. -/
theorem announces_under_live_id_started :
    ∃ m t, Driven m ∧ t ∈ m.trackers ∧ t.state = .announcing ∧ Freshest t.history 77 (seconds 2) := by
  have seen : (rounds [hearing [] 0, hearing [] (seconds 1), hearing [connectReply] (seconds 2)]).map (fun m =>
      m.trackers.map (fun t => (t.state, t.connectionId, t.connectedAt))) =
      some [(.announcing, 77, seconds 2)] := by
    decide +kernel
  obtain ⟨m, ran, shown⟩ := Option.map_eq_some_iff.mp seen
  have driven := rounds_driven ran
  have listed : (TrackerState.announcing, 77, seconds 2) ∈
      m.trackers.map (fun t => (t.state, t.connectionId, t.connectedAt)) := by
    rw [shown]
    exact List.mem_singleton_self _
  obtain ⟨t, member, fields⟩ := List.mem_map.mp listed
  obtain ⟨state, connectionId, connectedAt⟩ : t.state = .announcing ∧ t.connectionId = 77 ∧
      t.connectedAt = seconds 2 := by
    simpa only [Prod.mk.injEq] using fields
  refine ⟨m, t, driven, member, state, ?_⟩
  rw [← connectionId, ← connectedAt]
  exact (announces_under_live_id m driven t member).2.2.1 (Or.inr (Or.inl state))

end TorrentPeer.TrackerManager
