import TorrentPeer.Runtime.Turns

/-! The limits on connections, handshakes and candidates, under any sequence of calls. -/

namespace TorrentPeer.PeerManager

open Transition

structure Limits (pm : PeerManager) : Prop where
  room : Room pm
  halfOpen : pm.outbound.length ≤ kMaxHalfOpen
  candidates : pm.candidates.length ≤ kMaxCandidates

def Topped (pm : PeerManager) : Prop :=
  pm.candidates = [] ∨ pm.outbound.length = kMaxHalfOpen ∨
    pm.conns.size + pm.inbound.length + pm.outbound.length = pm.maxPeers

section Calls

variable {pm : PeerManager}

theorem Limits.frame {next : PeerManager} (limits : Limits pm) (frame : Frame pm next)
    (same : next.candidates = pm.candidates) : Limits next := by
  refine ⟨frame.room limits.room, ?_, ?_⟩
  · rw [frame.outbound]
    exact limits.halfOpen
  · rw [same]
    exact limits.candidates

theorem dialMore_limits (env : Env) (limits : Limits pm) :
    Limits (dialMore env pm) ∧ Topped (dialMore env pm) := by
  obtain ⟨dialed, left⟩ := dialMore_dialed env pm
  have room : Room (dialMore env pm) := (dialMore_apart env pm).room limits.room
  have half := dialed.halfOpen limits.halfOpen
  refine ⟨⟨room, half, Nat.le_trans left.length_le limits.candidates⟩, ?_⟩
  apply dialed.done.imp_right
  intro reached
  exact reached.imp (Nat.le_antisymm half) (Nat.le_antisymm room)

theorem queuePeers_limits (peers : List Peer) (limits : Limits pm) : Limits (queuePeers peers pm) := by
  induction peers generalizing pm with
  | nil => exact limits
  | cons p peers ih =>
    rw [queuePeers]
    split
    · exact limits
    · rename_i few
      split
      · exact ih limits
      · apply ih
        refine ⟨limits.room, limits.halfOpen, ?_⟩
        rw [List.length_append, List.length_singleton]
        exact Nat.lt_of_not_le few

theorem addPeers_limits (env : Env) (peers : List Peer) (limits : Limits pm) :
    Limits (addPeers env pm peers) ∧ Topped (addPeers env pm peers) :=
  dialMore_limits env (queuePeers_limits peers limits)

theorem accepted_limits (env : Env) (pfds : List PollFd) (limits : Limits pm) :
    Limits (accepted env pfds (expired env (swept env pfds pm).pm)) := by
  obtain ⟨known, admission⟩ := admitted_turns env pfds pm
  have serves := swept_serves env pfds pm
  have room : Room (swept env pfds pm).pm :=
    serves.frame.room (admitted_joins env pfds pm limits.room).2.1
  obtain ⟨more, grown⟩ := accepted_inbound env pfds (expired env (swept env pfds pm).pm)
  refine ⟨(acceptReady_apart env pfds _).room ((expire_apart _ _ _ _).room room), ?_, ?_⟩
  · have waits : (admitted env pfds pm).pm.outbound = (outboundTurns env pfds pm).filterMap Turn.waiting := by
      rw [admission.frame]
    have entries : (outboundTurns env pfds pm).length = pm.outbound.length := List.length_mapIdx
    rw [grown]
    calc ((swept env pfds pm).pm.outbound.filter (fun p => decide (¬ p.deadline ≤ env.clock .expireOutbound))).length
      _ ≤ (swept env pfds pm).pm.outbound.length := List.length_filter_le _ _
      _ = ((outboundTurns env pfds pm).filterMap Turn.waiting).length := by rw [serves.frame.outbound, waits]
      _ ≤ (outboundTurns env pfds pm).length := List.length_filterMap_le _ _
      _ ≤ kMaxHalfOpen := by rw [entries]; exact limits.halfOpen
  · rw [grown]
    show (swept env pfds pm).pm.candidates.length ≤ kMaxCandidates
    rw [serves.candidates, admission.frame]
    exact limits.candidates

theorem handleEvents_limits (env : Env) (pfds : List PollFd) (limits : Limits pm) :
    Limits (handleEvents env pfds pm).1 ∧ Topped (handleEvents env pfds pm).1 := by
  rw [handleEvents_stages]
  exact dialMore_limits env (accepted_limits env pfds limits)

theorem ban_limits (host : Bytes) (order : List Nat) (limits : Limits pm) : Limits (pm.ban host order).1 := by
  by_cases already : host ∈ pm.banned
  · rw [ban, if_pos already]
    exact limits
  · rw [ban_fresh host order already]
    have dropped := serves_dropAll { pm with banned := insert host pm.banned } [] (pm.peersOf host order)
    have listed : Limits { pm with banned := insert host pm.banned } :=
      ⟨limits.room, limits.halfOpen, limits.candidates⟩
    exact listed.frame dropped.frame dropped.candidates

theorem perform_limits (op : Op) (limits : Limits pm) : Limits (pm.perform op).1 := by
  cases op with
  | buildFds order => exact ⟨limits.room, limits.halfOpen, limits.candidates⟩
  | handleEvents env pfds => exact (handleEvents_limits env pfds limits).1
  | addPeers env peers => exact (addPeers_limits env peers limits).1
  | send id message now => exact limits.frame (modify_frame pm id _) rfl
  | broadcastHave index => exact limits.frame (broadcastHave_frame pm index) rfl
  | ban host order => exact ban_limits host order limits
  | expire id pending snubbed => exact limits.frame (modify_frame pm id _) rfl

end Calls

theorem used_limits {pm : PeerManager} (used : Used pm) : Limits pm := by
  refine Reachable.invariant ?_ ?_ used
  · rintro pm ⟨torrent, peerId, listenSock, maxPeers, created⟩
    obtain ⟨conns, inbound, outbound, candidates, -⟩ := create_empty created
    refine ⟨?_, ?_, ?_⟩
    · rw [Room, conns, inbound, outbound]
      exact Nat.zero_le _
    · rw [outbound]
      exact Nat.zero_le _
    · rw [candidates]
      exact Nat.zero_le _
  · intro pm next op limits moved
    cases moved
    exact perform_limits op limits

/-- In every state between two calls the connections and handshakes fit under `max_peers_`, the
dials under `kMaxHalfOpen` and the candidates under `kMaxCandidates`. Whenever `dial_more`
returns, from the end of a round or of `add_peers`, nobody is left to dial or one of the first
two limits is reached. -/
theorem limits_never_exceeded (pm : PeerManager) (used : Used pm) :
    (pm.conns.size + pm.inbound.length + pm.outbound.length ≤ pm.maxPeers ∧
      pm.outbound.length ≤ kMaxHalfOpen ∧ pm.candidates.length ≤ kMaxCandidates) ∧
    (∀ env pfds, Topped (pm.handleEvents env pfds).1) ∧ ∀ env peers, Topped (pm.addPeers env peers) := by
  have limits := used_limits used
  exact ⟨⟨limits.room, limits.halfOpen, limits.candidates⟩, fun env pfds => (handleEvents_limits env pfds limits).2,
    fun env peers => (addPeers_limits env peers limits).2⟩

theorem limits_never_exceeded_one_peer :
    ∃ pm, Used pm ∧ pm.conns.size = 1 ∧ pm.conns.size + pm.inbound.length + pm.outbound.length ≤ pm.maxPeers ∧
      ∀ env peers, Topped (pm.addPeers env peers) := by
  have seen : oneArrival.map (fun pm => pm.conns.size) = some 1 := by decide +kernel
  obtain ⟨pm, ran, one⟩ := Option.map_eq_some_iff.mp seen
  have used := oneArrival_used ran
  obtain ⟨⟨room, -⟩, -, topped⟩ := limits_never_exceeded pm used
  exact ⟨pm, used, one, room, topped⟩

end TorrentPeer.PeerManager
