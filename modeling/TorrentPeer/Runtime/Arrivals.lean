import TorrentPeer.Runtime.PeerActs

/-! What one round of `handle_events` leaves of identifiers, arrivals and connections:
who is promoted, who stays who they were, and whose blocks came in. -/

namespace TorrentPeer.PeerManager

open Wire Transition

section Round

variable {w next : World} {a : Act}

def joinedIds (events : List PeerEvent) : List Nat :=
  events.filterMap (fun event =>
    match event with
    | .joined id => some id
    | _ => none)

theorem mem_joinedIds (events : List PeerEvent) (id : Nat) :
    id ∈ joinedIds events ↔ .joined id ∈ events := by
  simp only [joinedIds, List.mem_filterMap]
  constructor
  · rintro ⟨event, member, same⟩
    cases event <;> cases same
    exact member
  · intro member
    exact ⟨_, member, rfl⟩

theorem joinedIds_eraseP (test : PeerEvent → Bool) (events : List PeerEvent)
    (free : ∀ id, test (.joined id) = false) :
    joinedIds (events.eraseP test) = joinedIds events := by
  induction events with
  | nil => rfl
  | cons event events ih =>
    rw [List.eraseP_cons]
    cases removed : test event with
    | true =>
      cases event with
      | joined id =>
        rw [free id] at removed
        cases removed
      | _ => rfl
    | false =>
      rw [cond_false]
      cases event with
      | joined id => exact congrArg (id :: ·) ih
      | _ => exact ih

theorem joinedIds_eraseLast (id : Nat) (req : BlockRequest) (events : List PeerEvent) :
    joinedIds (PeerConnection.eraseLast (fun event => decide (event = .request id req)) events) =
      joinedIds events := by
  have erased := joinedIds_eraseP (fun event => decide (event = .request id req)) events.reverse (by simp)
  rw [PeerConnection.eraseLast, joinedIds, List.filterMap_reverse]
  rw [joinedIds, joinedIds, List.filterMap_reverse] at erased
  rw [erased, List.reverse_reverse]
  rfl

theorem act_joined (own : a.Own) (moves : act w a = some next) :
    joinedIds next.out = joinedIds w.out ∨ next.pm.promoted = w.pm.promoted + 1 ∧
      joinedIds next.out = joinedIds w.out ++ [w.pm.promoted % 2 ^ 32] := by
  have quiet : ∀ event : PeerEvent, (∀ id, event ≠ .joined id) →
      joinedIds (w.out ++ [event]) = joinedIds w.out := by
    intro event other
    cases event with
    | joined id => exact absurd rfl (other id)
    | _ => simp [joinedIds]
  cases a with
  | send | ban | collect => cases own
  | promote sock peer now answers =>
    simp only [act, promote] at moves
    split at moves
    · cases moves
      refine Or.inr ⟨?_, by simp [joinedIds]⟩
      cases answers <;> rfl
    · cases moves
  | message other =>
    obtain ⟨c, msg, rest, handled, -, -, effect, same⟩ := act_message moves
    subst same
    refine Or.inl ?_
    cases effect with
    | withdrawn req => exact joinedIds_eraseLast other req w.out
    | unchoked => exact quiet _ (by simp)
    | choked => exact quiet _ (by simp)
    | asked req unchoked small index offset => exact quiet _ (by simp)
    | delivered k block size answered => exact quiet _ (by simp)
    | _ => rfl
  | drop other =>
    rcases act_drop moves with ⟨-, same⟩ | ⟨c, -, same⟩
    · rw [same]
      exact Or.inl rfl
    · rw [same]
      exact Or.inl (quiet _ (by simp))
  | drain id result now => cases moves; exact Or.inl rfl
  | receive id chunk now => cases moves; exact Or.inl rfl
  | keepAlives now => cases moves; exact Or.inl rfl
  | outside other => cases moves; exact Or.inl rfl

theorem Serves.joined (serves : Serves w next) : joinedIds next.out = joinedIds w.out := by
  have step : ∀ state after a, Act.Serving a → joinedIds state.out = joinedIds w.out → act state a = some after →
      joinedIds after.out = joinedIds w.out := by
    intro state after a serving before moves
    have still := (act_frame state after a serving moves).promoted
    rcases act_joined (serving.vets state.pm).1 moves with same | ⟨more, -⟩
    · exact same.trans before
    · omega
  exact Reaches.preserves step serves rfl

/-- No act changes who a connection is, and on its own `PeerManager` asks for nothing. -/
structure Keeper (c after : PeerConnection) : Prop where
  id : after.id = c.id
  peer : after.peer = c.peer
  pending : requestsOf after.pending ⊆ requestsOf c.pending

theorem touches_keeper {c after : PeerConnection} (touch : Touches c after) : Keeper c after := by
  cases touch with
  | drain result now =>
    obtain ⟨_, _, _, _, _, same⟩ := c.drain_shape result now
    rw [same]
    exact ⟨rfl, rfl, fun _ member => member⟩
  | receive chunk now => exact ⟨rfl, rfl, fun _ member => member⟩
  | ping empty => exact ⟨rfl, rfl, fun _ member => member⟩
  | message rest id frequency out msg handled extracted effect =>
    cases effect with
    | choked => exact ⟨rfl, rfl, fun _ member => by cases member⟩
    | delivered k block size answered =>
      exact ⟨rfl, rfl, List.map_subset _ (List.eraseIdx_sublist _ _).subset⟩
    | cancelled index offset length =>
      obtain ⟨_, _, same⟩ := PeerConnection.removeQueuedPiece_shape _ index offset length
      rw [same]
      exact ⟨rfl, rfl, fun _ member => member⟩
    | _ => exact ⟨rfl, rfl, fun _ member => member⟩

theorem Keeper.trans {first second third : PeerConnection} (early : Keeper first second)
    (late : Keeper second third) : Keeper first third :=
  ⟨late.id.trans early.id, late.peer.trans early.peer,
    fun _ member => early.pending (late.pending member)⟩

/-- A round in progress against the manager it began with, while no identifier comes around. -/
structure Since (start : PeerManager) (w : World) : Prop where
  more : start.promoted ≤ w.pm.promoted
  joined : ∀ id ∈ joinedIds w.out, start.promoted ≤ id ∧ id < w.pm.promoted
  once : (joinedIds w.out).Nodup
  conns : ∀ id c, w.pm.conns.find? id = some c →
    (∃ before, start.conns.find? id = some before ∧ Keeper before c) ∨
      start.promoted ≤ id ∧ id < w.pm.promoted ∧ c.id = id ∧ c.pending = [] ∧ .joined id ∈ w.out
  pieces : ∀ id block, .piece id block ∈ w.out →
    ∃ before, start.conns.find? id = some before ∧ answerOf block ∈ requestsOf before.pending

theorem Since.refl (start : PeerManager) : Since start ⟨start, []⟩ := by
  refine ⟨Nat.le_refl _, by simp [joinedIds], by simp [joinedIds], ?_, ?_⟩
  · intro id c found
    exact Or.inl ⟨c, found, rfl, rfl, fun _ member => member⟩
  · intro id block member
    cases member

theorem newcomer_idle (pm : PeerManager) (sock : Socket) (peer : Peer) (now : Time) (answers : Bool) :
    (newcomer pm sock peer now answers).id = pm.promoted % 2 ^ 32 ∧
      (newcomer pm sock peer now answers).pending = [] := by
  cases answers <;> exact ⟨rfl, rfl⟩

theorem Since.act {start : PeerManager} (since : Since start w) (own : a.Own)
    (moves : act w a = some next) (few : next.pm.promoted < 2 ^ 32) : Since start next := by
  have grown := (act_fixed own moves).promoted
  have more := since.more
  have arrivals : (∀ id ∈ joinedIds next.out, start.promoted ≤ id ∧ id < next.pm.promoted) ∧
      (joinedIds next.out).Nodup ∧ ∀ id ∈ joinedIds w.out, id ∈ joinedIds next.out := by
    rcases act_joined own moves with same | ⟨counted, same⟩
    · rw [same]
      refine ⟨?_, since.once, fun _ member => member⟩
      intro id member
      obtain ⟨low, high⟩ := since.joined id member
      exact ⟨low, by omega⟩
    · rw [same, Nat.mod_eq_of_lt (by omega)]
      refine ⟨?_, ?_, fun _ member => List.mem_append_left _ member⟩
      · intro id member
        rcases List.mem_append.mp member with old | new
        · obtain ⟨low, high⟩ := since.joined id old
          exact ⟨low, by omega⟩
        · rw [List.mem_singleton.mp new]
          exact ⟨more, by omega⟩
      · refine List.nodup_append.mpr ⟨since.once, by simp, ?_⟩
        intro id member other last
        have high := (since.joined id member).2
        rw [List.mem_singleton.mp last]
        omega
  obtain ⟨range, once, kept⟩ := arrivals
  -- what a connection was at the start survives the act
  have stays : ∀ id old c, w.pm.conns.find? id = some old → Keeper old c →
      (∃ before, start.conns.find? id = some before ∧ Keeper before c) ∨
        start.promoted ≤ id ∧ id < next.pm.promoted ∧ c.id = id ∧ c.pending = [] ∧
          .joined id ∈ next.out := by
    intro id old c present keeper
    rcases since.conns id old present with ⟨before, found, earlier⟩ | ⟨low, high, same, empty, joined⟩
    · exact Or.inl ⟨before, found, earlier.trans keeper⟩
    · refine Or.inr ⟨low, by omega, keeper.id.trans same, ?_,
        (mem_joinedIds _ _).mp (kept id ((mem_joinedIds _ _).mpr joined))⟩
      have none_left := keeper.pending
      rw [empty] at none_left
      exact List.map_eq_nil_iff.mp (List.subset_nil.mp none_left)
  refine ⟨Nat.le_trans since.more grown, range, once, ?_, ?_⟩
  · intro id c found
    rcases act_connection own moves found with
      ⟨old, present, same | ⟨-, touch⟩ | ⟨-, same⟩⟩ | ⟨-, here, counted, joined, sock, peer, now, answers, -, same⟩
    · rw [same]
      exact stays id old old present ⟨rfl, rfl, fun _ member => member⟩
    · exact stays id old c present (touches_keeper touch)
    · rw [same]
      exact stays id old _ present ⟨rfl, rfl, fun _ member => member⟩
    · obtain ⟨name, idle⟩ := newcomer_idle w.pm sock peer now answers
      rw [Nat.mod_eq_of_lt (by omega)] at here name
      rw [same]
      exact Or.inr ⟨by omega, by omega, by rw [name, here], idle, joined⟩
  · intro id block member
    rcases act_events own moves _ member with
      old | joined | ⟨other, c, -, dropped⟩ | ⟨other, c, msg, rest, handled, present, extracted, effect, inside⟩
    · exact since.pieces id block old
    · cases joined
    · cases dropped
    · cases effect with
      | unchoked => exact since.pieces id block (by simpa using inside)
      | choked => exact since.pieces id block (by simpa using inside)
      | asked req unchoked small index offset => exact since.pieces id block (by simpa using inside)
      | withdrawn req => exact since.pieces id block (eraseLast_subset _ _ _ inside)
      | delivered k arrived size answered =>
        rcases List.mem_append.mp inside with old | new
        · exact since.pieces id block old
        · have same := List.mem_singleton.mp new
          cases same
          have short := extractMessage_short extracted
          rw [Nat.mod_eq_of_lt (by omega)] at answered
          have asked : answerOf block ∈ requestsOf c.pending := by
            obtain ⟨entry, located, request⟩ := Option.map_eq_some_iff.mp answered
            exact List.mem_map.mpr ⟨entry, List.mem_of_getElem? located, request⟩
          rcases since.conns _ c present with ⟨before, found, keeper⟩ | ⟨-, -, -, empty, -⟩
          · exact ⟨before, found, keeper.pending asked⟩
          · rw [empty] at asked
            cases asked
      | _ => exact since.pieces id block inside

theorem acts_since {start : PeerManager} {w : World} (moves : Acts ⟨start, []⟩ w)
    (few : w.pm.promoted < 2 ^ 32) : Since start w := by
  have step : ∀ state after a, Act.Own a → (state.pm.promoted < 2 ^ 32 → Since start state) →
      PeerManager.act state a = some after → after.pm.promoted < 2 ^ 32 → Since start after := by
    intro state after a own before moved small
    have grown := (act_fixed own moved).promoted
    exact (before (by omega)).act own moved small
  exact Reaches.preserves step moves (fun _ => Since.refl start) few

end Round

end TorrentPeer.PeerManager
