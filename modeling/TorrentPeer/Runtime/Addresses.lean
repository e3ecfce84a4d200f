import TorrentPeer.Runtime.PeerCalls
import Mathlib.Data.Finset.Lattice.Basic
import Mathlib.Data.Finset.Filter

/-! The addresses `PeerManager` dials: queued, dialing or connected, each at most once, and
`known_` is the set of them as long as no peer that connected on its own shares one. -/

namespace TorrentPeer.PeerManager

open Wire Transition

/-- A manager with the connections that were promoted from a dial. -/
structure Dialing where
  pm : PeerManager
  dialled : Finset Nat := ∅

def promotedOut (env : Env) (pfds : List PollFd) (pm : PeerManager) : Finset Nat :=
  let (waited, out) := inboundPass env pfds pm []
  let (dialled, _) := outboundPass env pfds waited out
  (dialled.conns.keys.filter (fun id => decide (id ∉ waited.conns.keys))).toFinset

def dialStep (d : Dialing) (op : Op) : Dialing :=
  let next := (d.pm.perform op).1
  let ids := match op with
    | .handleEvents env pfds => d.dialled ∪ promotedOut env pfds d.pm
    | _ => d.dialled
  ⟨next, ids.filter (fun id => id ∈ next.conns.keys)⟩

def addresses (d : Dialing) : List Bytes :=
  d.pm.candidates.map key ++ d.pm.outbound.map (fun p => key p.peer) ++
    (d.pm.conns.entries.filter (fun entry => decide (entry.1 ∈ d.dialled))).map (fun entry => key entry.2.peer)

def calls (ids : Finset Nat) (k : Bytes) (c : PeerConnection) : Nat :=
  if c.id ∈ ids ∧ key c.peer = k then 1 else 0

def listed (known : Finset Bytes) (k : Bytes) : Nat := if k ∈ known then 1 else 0

section Listed

variable {known : Finset Bytes} {k j : Bytes}

theorem listed_le : listed known k ≤ 1 := by
  unfold listed
  split <;> omega

theorem listed_pos : 0 < listed known k ↔ k ∈ known := by
  unfold listed
  split <;> simp_all

theorem listed_erase_self : listed (known.erase k) k = 0 := by simp [listed]

theorem listed_erase_other (different : k ≠ j) : listed (known.erase j) k = listed known k := by
  simp [listed, different]

theorem listed_erase_absent (absent : j ∉ known) : listed (known.erase j) k = listed known k := by
  rw [Finset.erase_eq_of_notMem absent]

theorem listed_insert_self : listed (insert k known) k = 1 := by simp [listed]

theorem listed_insert_other (different : k ≠ j) : listed (insert j known) k = listed known k := by
  simp [listed, different]

end Listed

/-- Every key that is waiting, dialing (`addrs`) or connected stands for one entry of `known_`. -/
structure Addressed (pm : PeerManager) (addrs : List Bytes) (ids : Finset Nat) : Prop where
  count : ∀ k, addrs.count k + pm.conns.total (calls ids k) = listed pm.known k
  names : ∀ id c, pm.conns.find? id = some c → c.id = id ∧ id < pm.promoted
  old : ∀ id ∈ ids, id < pm.promoted

def Strangers (pm : PeerManager) (ids : Finset Nat) : Prop :=
  ∀ id c, pm.conns.find? id = some c → id ∉ ids → key c.peer ∉ pm.known

section Stages

variable {pm : PeerManager} {addrs : List Bytes} {ids : Finset Nat}

theorem Addressed.frame {next : PeerManager} {more : List Bytes} (addressed : Addressed pm addrs ids)
    (conns : next.conns = pm.conns) (known : next.known = pm.known) (promoted : next.promoted = pm.promoted)
    (same : ∀ k, more.count k = addrs.count k) : Addressed next more ids := by
  refine ⟨?_, ?_, ?_⟩
  · intro k
    rw [conns, known, same]
    exact addressed.count k
  · rw [conns, promoted]
    exact addressed.names
  · rw [promoted]
    exact addressed.old

theorem Addressed.relabel (addressed : Addressed pm addrs ids) {others : Finset Nat}
    (same : ∀ id c, pm.conns.find? id = some c → (id ∈ others ↔ id ∈ ids))
    (old : ∀ id ∈ others, id < pm.promoted) : Addressed pm addrs others := by
  refine ⟨?_, addressed.names, old⟩
  intro k
  rw [pm.conns.total_congr (calls others k) (calls ids k)]
  · exact addressed.count k
  · intro id c found
    simp only [calls, (addressed.names id c found).1, same id c found]

/-- Connections changed in place, without changing who they are. -/
structure Steady (before after : PeerManager) : Prop where
  conns : ∀ id c, after.conns.find? id = some c →
    ∃ old, before.conns.find? id = some old ∧ c.id = old.id ∧ c.peer = old.peer
  total : ∀ ids k, after.conns.total (calls ids k) = before.conns.total (calls ids k)
  known : after.known = before.known
  promoted : after.promoted = before.promoted
  candidates : after.candidates = before.candidates
  outbound : after.outbound = before.outbound

theorem Steady.refl (pm : PeerManager) : Steady pm pm :=
  ⟨fun _ c found => ⟨c, found, rfl, rfl⟩, fun _ _ => rfl, rfl, rfl, rfl, rfl⟩

theorem Steady.trans {first second third : PeerManager} (early : Steady first second)
    (late : Steady second third) : Steady first third := by
  refine ⟨?_, fun ids k => (late.total ids k).trans (early.total ids k), late.known.trans early.known,
    late.promoted.trans early.promoted, late.candidates.trans early.candidates,
    late.outbound.trans early.outbound⟩
  intro id c found
  obtain ⟨middle, present, name, peer⟩ := late.conns id c found
  obtain ⟨old, there, earlier, same⟩ := early.conns id middle present
  exact ⟨old, there, name.trans earlier, peer.trans same⟩

theorem Addressed.steady {next : PeerManager} (addressed : Addressed pm addrs ids)
    (steady : Steady pm next) : Addressed next addrs ids := by
  refine ⟨?_, ?_, by rw [steady.promoted]; exact addressed.old⟩
  · intro k
    rw [steady.total, steady.known]
    exact addressed.count k
  · intro id c found
    obtain ⟨old, present, name, -⟩ := steady.conns id c found
    rw [steady.promoted, name]
    exact addressed.names id old present

theorem Strangers.steady {next : PeerManager} (strangers : Strangers pm ids) (steady : Steady pm next) :
    Strangers next ids := by
  intro id c found other
  obtain ⟨old, present, -, peer⟩ := steady.conns id c found
  rw [peer, steady.known]
  exact strangers id old present other

theorem modify_steady (pm : PeerManager) (id : Nat) (change : PeerConnection → PeerConnection)
    (keeps : ∀ c, pm.conns.find? id = some c → (change c).id = c.id ∧ (change c).peer = c.peer) :
    Steady pm { pm with conns := pm.conns.modify id change } := by
  refine ⟨?_, ?_, rfl, rfl, rfl, rfl⟩
  · intro other c found
    obtain ⟨old, present, same | ⟨here, same⟩⟩ := find_modify_some found
    · exact ⟨old, present, by rw [same], by rw [same]⟩
    · subst here
      obtain ⟨name, peer⟩ := keeps old present
      exact ⟨old, present, by rw [same, name], by rw [same, peer]⟩
  · intro ids k
    apply Table.total_modify_same
    intro c found
    obtain ⟨name, peer⟩ := keeps c found
    rw [calls, calls, name, peer]

theorem update_steady (pm : PeerManager) (change : Nat → PeerConnection → PeerConnection)
    (keeps : ∀ id c, (change id c).id = c.id ∧ (change id c).peer = c.peer) :
    Steady pm { pm with conns := pm.conns.update change } := by
  refine ⟨?_, ?_, rfl, rfl, rfl, rfl⟩
  · intro id c found
    rw [Table.find_update] at found
    obtain ⟨old, present, same⟩ := Option.map_eq_some_iff.mp found
    exact ⟨old, present, by rw [← same]; exact (keeps id old).1, by rw [← same]; exact (keeps id old).2⟩
  · intro ids k
    apply Table.total_update
    intro id c found
    rw [calls, calls, (keeps id c).1, (keeps id c).2]

theorem act_steady {w next : World} {a : Act} (reading : a.Reading) (moves : act w a = some next) :
    Steady w.pm next.pm := by
  cases a with
  | drain id result now =>
    cases moves
    refine modify_steady w.pm id _ ?_
    intro c _
    have keeper := touches_keeper (Touches.drain c result now)
    exact ⟨keeper.id, keeper.peer⟩
  | receive id chunk now =>
    cases moves
    exact modify_steady w.pm id _ (fun _ _ => ⟨rfl, rfl⟩)
  | message id =>
    obtain ⟨c, msg, rest, handled, found, extracted, effect, same⟩ := act_message moves
    subst same
    have keeper := touches_keeper (Touches.message c rest id _ _ msg handled extracted effect)
    have steady := modify_steady w.pm id (fun _ => handled.conn) (by
      intro other present
      rw [found] at present
      cases present
      exact ⟨keeper.id, keeper.peer⟩)
    exact ⟨steady.conns, steady.total, rfl, rfl, rfl, rfl⟩
  | _ => cases reading

theorem reads_steady {w next : World} (reads : Reads w next) : Steady w.pm next.pm :=
  Reaches.preserves
    (fun _ _ _ reading earlier moves => Steady.trans earlier (act_steady reading moves)) reads
    (Steady.refl w.pm)

theorem Addressed.drop (addressed : Addressed pm addrs ids) (strangers : Strangers pm ids) (id : Nat)
    (out : List PeerEvent) :
    Addressed (pm.drop id out).1 addrs ids ∧ Strangers (pm.drop id out).1 ids := by
  unfold PeerManager.drop
  split
  · exact ⟨addressed, strangers⟩
  · rename_i c found
    obtain ⟨name, -⟩ := addressed.names id c found
    refine ⟨⟨?_, ?_, addressed.old⟩, ?_⟩
    · intro k
      have count := addressed.count k
      have total := pm.conns.total_erase id c (calls ids k) found
      dsimp only
      by_cases mine : id ∈ ids
      · by_cases here : key c.peer = k
        · rw [calls, if_pos ⟨name ▸ mine, here⟩] at total
          have most : listed pm.known k ≤ 1 := listed_le
          rw [here, listed_erase_self]
          omega
        · rw [calls, if_neg (fun both => here both.2)] at total
          rw [listed_erase_other (Ne.symm here)]
          omega
      · rw [calls, if_neg (fun both => mine (name ▸ both.1))] at total
        rw [listed_erase_absent (strangers id c found mine)]
        omega
    · intro other d present
      rw [Table.find_erase] at present
      split at present
      · cases present
      · exact addressed.names other d present
    · intro other d present outside listed
      rw [Table.find_erase] at present
      split at present
      · cases present
      · exact strangers other d present outside (Finset.mem_of_mem_erase listed)

theorem Addressed.dropAll (addressed : Addressed pm addrs ids) (strangers : Strangers pm ids)
    (dropped : List Nat) (out : List PeerEvent) : Addressed (pm.dropAll out dropped).1 addrs ids := by
  induction dropped generalizing pm out with
  | nil => exact addressed
  | cons id rest ih =>
    obtain ⟨kept, still⟩ := addressed.drop strangers id out
    exact ih kept still _

def joinedBy (pm : PeerManager) (c : PeerConnection) : PeerManager :=
  { pm with promoted := pm.promoted + 1, conns := pm.conns.emplace pm.promoted c }

theorem Addressed.free (addressed : Addressed pm addrs ids) : pm.conns.find? pm.promoted = none := by
  by_contra taken
  obtain ⟨c, found⟩ := Option.ne_none_iff_exists'.mp taken
  exact Nat.lt_irrefl _ (addressed.names _ c found).2

theorem Addressed.promote (addressed : Addressed pm addrs ids) (c : PeerConnection) (name : c.id = pm.promoted)
    {more : Finset Nat} {left : List Bytes} (same : ∀ id < pm.promoted, id ∈ more ↔ id ∈ ids)
    (old : ∀ id ∈ more, id ≤ pm.promoted)
    (count : ∀ k, left.count k + calls more k c = addrs.count k) : Addressed (joinedBy pm c) left more := by
  have absent := addressed.free
  refine ⟨?_, ?_, fun id member => Nat.lt_succ_of_le (old id member)⟩
  · intro k
    have before := addressed.count k
    have after := pm.conns.total_emplace pm.promoted c (calls more k) absent
    have unchanged : pm.conns.total (calls more k) = pm.conns.total (calls ids k) := by
      apply pm.conns.total_congr
      intro id d found
      obtain ⟨label, low⟩ := addressed.names id d found
      simp only [calls, label, same id low]
    have split := count k
    show left.count k + (pm.conns.emplace pm.promoted c).total (calls more k) = listed pm.known k
    omega
  · intro id d found
    simp only [joinedBy] at found ⊢
    rw [Table.find_emplace _ _ _ _ absent] at found
    split at found
    · rename_i here
      cases found
      exact ⟨name.trans here.symm, by omega⟩
    · obtain ⟨label, low⟩ := addressed.names id d found
      exact ⟨label, by omega⟩

theorem promote_joined (sock : Socket) (peer : Peer) (now : Time) (out : List PeerEvent)
    (few : pm.promoted < 2 ^ 32) :
    (pm.promote sock peer now out).1 = joinedBy pm (newcomer pm sock peer now false) := by
  simp only [PeerManager.promote, joinedBy, newcomer, Nat.mod_eq_of_lt few, Bool.false_eq_true, if_false]

theorem promote_answered (sock : Socket) (peer : Peer) (now : Time) (out : List PeerEvent)
    (few : pm.promoted < 2 ^ 32) (absent : pm.conns.find? pm.promoted = none) :
    (pm.promote sock peer now out).1.sendTo (pm.promoted % 2 ^ 32) (.handshake pm.torrent pm.peerId) =
      joinedBy pm (newcomer pm sock peer now true) := by
  simp only [PeerManager.promote, joinedBy, newcomer, sendTo, Nat.mod_eq_of_lt few, if_true,
    Table.emplace_modify _ _ _ _ absent]

/-- What one of the handshake loops leaves for the later stages of the round. -/
structure Passed (start pm : PeerManager) : Prop where
  more : start.promoted ≤ pm.promoted
  known : pm.known ⊆ start.known
  candidates : pm.candidates = start.candidates
  outbound : pm.outbound = start.outbound
  kept : ∀ id c, start.conns.find? id = some c → pm.conns.find? id = some c
  fresh : ∀ id c, pm.conns.find? id = some c → start.conns.find? id = some c ∨ start.promoted ≤ id

theorem Passed.refl (pm : PeerManager) : Passed pm pm :=
  ⟨Nat.le_refl _, Finset.Subset.refl _, rfl, rfl, fun _ _ found => found, fun _ _ found => Or.inl found⟩

theorem Passed.trans {first second third : PeerManager} (early : Passed first second)
    (late : Passed second third) : Passed first third := by
  refine ⟨early.more.trans late.more, late.known.trans early.known, late.candidates.trans early.candidates,
    late.outbound.trans early.outbound, fun id c found => late.kept id c (early.kept id c found), ?_⟩
  intro id c found
  have grown := early.more
  rcases late.fresh id c found with there | new
  · exact early.fresh id c there
  · exact Or.inr (by omega)

theorem Addressed.joined (addressed : Addressed pm addrs ids) (c : PeerConnection) :
    Passed pm (joinedBy pm c) := by
  have absent := addressed.free
  refine ⟨Nat.le_succ _, Finset.Subset.refl _, rfl, rfl, ?_, ?_⟩
  · intro id d found
    show (pm.conns.emplace pm.promoted c).find? id = some d
    rw [Table.find_emplace _ _ _ _ absent, if_neg, found]
    rintro rfl
    rw [absent] at found
    cases found
  · intro id d found
    simp only [joinedBy, Table.find_emplace _ _ _ _ absent] at found
    split at found
    · rename_i here
      exact Or.inr (Nat.le_of_eq here.symm)
    · exact Or.inl found

theorem Strangers.joined (strangers : Strangers pm ids) (addressed : Addressed pm addrs ids)
    (c : PeerConnection) {more : Finset Nat} (same : ∀ id < pm.promoted, id ∈ more ↔ id ∈ ids)
    (unlisted : pm.promoted ∉ more → key c.peer ∉ pm.known) : Strangers (joinedBy pm c) more := by
  intro id d found outside
  simp only [joinedBy, Table.find_emplace _ _ _ _ addressed.free] at found
  split at found
  · rename_i here
    cases found
    exact unlisted (here ▸ outside)
  · have low := (addressed.names id d found).2
    exact strangers id d found (fun member => outside ((same id low).mpr member))

theorem advanceInbound_joined (env : Env) (p : PendingInbound) (out : List PeerEvent)
    (few : pm.promoted < 2 ^ 32) (absent : pm.conns.find? pm.promoted = none) :
    (advanceInbound env pm p out).2.1 = pm ∨
      ∃ sock now, (advanceInbound env pm p out).2.1 = joinedBy pm (newcomer pm sock p.peer now true) := by
  unfold advanceInbound
  split
  · exact Or.inl rfl
  · exact Or.inl rfl
  · split
    · exact Or.inl rfl
    · exact Or.inr ⟨_, _, promote_answered _ p.peer _ out few absent⟩

theorem newcomer_name (sock : Socket) (peer : Peer) (now : Time) (answers : Bool) (few : pm.promoted < 2 ^ 32) :
    (newcomer pm sock peer now answers).id = pm.promoted := by
  rw [(newcomer_idle pm sock peer now answers).1, Nat.mod_eq_of_lt few]

theorem inboundLoop_addressed (env : Env) (pfds : List PollFd) (pending : List PendingInbound) (at_ : Nat)
    (out : List PeerEvent) (addressed : Addressed pm addrs ids) (strangers : Strangers pm ids)
    (apart : ∀ p ∈ pending, key p.peer ∉ pm.known) (few : pm.promoted + pending.length ≤ 2 ^ 32) :
    Addressed (inboundLoop env pfds pending at_ pm out).2.1 addrs ids ∧
      Strangers (inboundLoop env pfds pending at_ pm out).2.1 ids ∧
      Passed pm (inboundLoop env pfds pending at_ pm out).2.1 ∧
      (inboundLoop env pfds pending at_ pm out).2.1.promoted ≤ pm.promoted + pending.length := by
  induction pending generalizing at_ pm out with
  | nil => exact ⟨addressed, strangers, Passed.refl pm, Nat.le_refl _⟩
  | cons p rest ih =>
    rw [List.length_cons] at few
    simp only [inboundLoop, List.length_cons]
    generalize stepped : (if reventsAt pfds at_ = 0 then (some p, pm, out)
      else if readable (reventsAt pfds at_) = true then advanceInbound env pm p out
      else (none, pm, out)) = result
    obtain ⟨kept, next, events⟩ := result
    dsimp only
    have cases_of : next = pm ∨ ∃ sock now, next = joinedBy pm (newcomer pm sock p.peer now true) := by
      split at stepped
      · cases stepped
        exact Or.inl rfl
      · split at stepped
        · have advanced := advanceInbound_joined env p out (by omega) addressed.free
          rw [stepped] at advanced
          exact advanced
        · cases stepped
          exact Or.inl rfl
    have later : ∀ q ∈ rest, key q.peer ∉ pm.known := fun q member => apart q (List.mem_cons_of_mem _ member)
    rcases cases_of with same | ⟨sock, now, same⟩
    · subst same
      obtain ⟨kept, still, passed, most⟩ := ih (at_ + 1) events addressed strangers later (by omega)
      exact ⟨kept, still, passed, Nat.le_trans most (by omega)⟩
    · subst same
      have name := newcomer_name sock p.peer now true (show pm.promoted < 2 ^ 32 by omega)
      have peer := newcomer_peer pm sock p.peer now true
      have outside : pm.promoted ∉ ids := fun member => Nat.lt_irrefl _ (addressed.old _ member)
      have promoted : Addressed (joinedBy pm (newcomer pm sock p.peer now true)) addrs ids := by
        refine addressed.promote _ name (fun _ _ => Iff.rfl)
          (fun id member => Nat.le_of_lt (addressed.old id member)) ?_
        intro k
        rw [calls, if_neg (fun both => outside (name ▸ both.1)), Nat.add_zero]
      have unlisted := apart p (List.mem_cons_self ..)
      obtain ⟨kept, still, passed, most⟩ := ih (at_ + 1) events promoted
        (strangers.joined addressed _ (fun _ _ => Iff.rfl) (fun _ => by rw [peer]; exact unlisted)) later
        (by show pm.promoted + 1 + rest.length ≤ _; omega)
      refine ⟨kept, still, (addressed.joined _).trans passed, Nat.le_trans most ?_⟩
      show pm.promoted + 1 + rest.length ≤ _
      omega

theorem advanceOutbound_joined (env : Env) (p : PendingOutbound) (rev : Nat) (out : List PeerEvent)
    (few : pm.promoted < 2 ^ 32) :
    ((advanceOutbound env pm p rev out).1 ≠ .promoted ∧ (advanceOutbound env pm p rev out).2.2.1 = pm) ∨
      (advanceOutbound env pm p rev out).1 = .promoted ∧ ∃ sock now,
        (advanceOutbound env pm p rev out).2.2.1 = joinedBy pm (newcomer pm sock p.peer now false) := by
  unfold advanceOutbound
  split
  · split <;> exact Or.inl ⟨by simp, rfl⟩
  · split
    · exact Or.inl ⟨by simp, rfl⟩
    · split
      · exact Or.inl ⟨by simp, rfl⟩
      · exact Or.inl ⟨by simp, rfl⟩
      · split
        · exact Or.inl ⟨by simp, rfl⟩
        · exact Or.inr ⟨rfl, _, _, promote_joined _ p.peer _ out few⟩

theorem Addressed.forget {front rest : List Bytes} {k : Bytes} (addressed : Addressed pm (front ++ k :: rest) ids) :
    Addressed { pm with known := pm.known.erase k } (front ++ rest) ids := by
  refine ⟨?_, addressed.names, addressed.old⟩
  intro j
  have count := addressed.count j
  have most : listed pm.known j ≤ 1 := listed_le
  rw [List.count_append, List.count_cons] at count
  rw [List.count_append]
  show front.count j + rest.count j + pm.conns.total (calls ids j) = listed (pm.known.erase k) j
  by_cases here : k = j
  · subst here
    rw [beq_self_eq_true, if_pos rfl] at count
    rw [listed_erase_self]
    omega
  · rw [beq_eq_false_iff_ne.mpr here, if_neg (by decide)] at count
    rw [listed_erase_other (Ne.symm here)]
    omega

theorem mem_insert_promoted {id : Nat} (low : id < pm.promoted) : id ∈ insert pm.promoted ids ↔ id ∈ ids := by
  rw [Finset.mem_insert]
  exact ⟨fun member => member.resolve_left (Nat.ne_of_lt low), Or.inr⟩

theorem Addressed.connect {front rest : List Bytes} {peer : Peer}
    (addressed : Addressed pm (front ++ key peer :: rest) ids) (few : pm.promoted < 2 ^ 32) (sock : Socket)
    (now : Time) :
    Addressed (joinedBy pm (newcomer pm sock peer now false)) (front ++ rest) (insert pm.promoted ids) := by
  have name := newcomer_name sock peer now false few
  refine addressed.promote _ name (fun id low => mem_insert_promoted low) ?_ ?_
  · intro id member
    rcases Finset.mem_insert.mp member with here | old
    · exact Nat.le_of_eq here
    · exact Nat.le_of_lt (addressed.old id old)
  · intro k
    rw [calls, name, newcomer_peer, List.count_append, List.count_append, List.count_cons]
    by_cases here : key peer = k
    · rw [if_pos ⟨Finset.mem_insert_self _ _, here⟩, here, beq_self_eq_true, if_pos rfl]
      omega
    · rw [if_neg (fun both => here both.2), beq_eq_false_iff_ne.mpr here, if_neg (by decide)]
      omega

theorem Strangers.forget (strangers : Strangers pm ids) (k : Bytes) :
    Strangers { pm with known := pm.known.erase k } ids :=
  fun id c found outside listed => strangers id c found outside (Finset.mem_of_mem_erase listed)

theorem Passed.forget (pm : PeerManager) (k : Bytes) : Passed pm { pm with known := pm.known.erase k } :=
  ⟨Nat.le_refl _, Finset.erase_subset _ _, rfl, rfl, fun _ _ found => found, fun _ _ found => Or.inl found⟩

theorem members_since {more : Finset Nat} {low high : Nat} (grown : low + 1 ≤ high)
    (members : ∀ id, id ∈ more ↔ id ∈ insert low ids ∨ low + 1 ≤ id ∧ id < high) (id : Nat) :
    id ∈ more ↔ id ∈ ids ∨ low ≤ id ∧ id < high := by
  rw [members, Finset.mem_insert]
  constructor
  · rintro ((here | old) | ⟨above, below⟩)
    · exact Or.inr ⟨Nat.le_of_eq here.symm, by omega⟩
    · exact Or.inl old
    · exact Or.inr ⟨by omega, below⟩
  · rintro (old | ⟨above, below⟩)
    · exact Or.inl (Or.inr old)
    · by_cases here : id = low
      · exact Or.inl (Or.inl here)
      · exact Or.inr ⟨by omega, below⟩

/-- The outbound loop, by induction on the entries still to visit; `front` are the addresses
of everything else that waits or dials. -/
theorem outboundLoop_addressed (env : Env) (pfds : List PollFd) (pending : List PendingOutbound) (at_ : Nat)
    (out : List PeerEvent) (front : List Bytes)
    (addressed : Addressed pm (front ++ pending.map (fun p => key p.peer)) ids)
    (strangers : Strangers pm ids) (few : pm.promoted + pending.length ≤ 2 ^ 32) :
    ∃ more, Addressed (outboundLoop env pfds pending at_ pm out).2.1
        (front ++ (outboundLoop env pfds pending at_ pm out).1.map (fun p => key p.peer)) more ∧
      Strangers (outboundLoop env pfds pending at_ pm out).2.1 more ∧
      Passed pm (outboundLoop env pfds pending at_ pm out).2.1 ∧
      ∀ id, id ∈ more ↔ id ∈ ids ∨
        pm.promoted ≤ id ∧ id < (outboundLoop env pfds pending at_ pm out).2.1.promoted := by
  induction pending generalizing at_ pm out front ids with
  | nil =>
    refine ⟨ids, addressed, strangers, Passed.refl pm, ?_⟩
    intro id
    simp only [outboundLoop]
    constructor
    · exact Or.inl
    · rintro (old | ⟨low, high⟩)
      · exact old
      · omega
  | cons p rest ih =>
    rw [List.length_cons] at few
    rw [List.map_cons] at addressed
    simp only [outboundLoop]
    generalize stepped : (if reventsAt pfds at_ = 0 then (HandshakeResult.keep, p, pm, out)
      else advanceOutbound env pm p (reventsAt pfds at_) out) = result
    obtain ⟨verdict, q, next, events⟩ := result
    dsimp only
    have same_peer : q.peer = p.peer := by
      split at stepped
      · cases stepped
        rfl
      · have entry := advanceOutbound_entry env pm p (reventsAt pfds at_) out
        rw [stepped] at entry
        exact entry.2
    have outcome : (verdict ≠ .promoted ∧ next = pm) ∨ verdict = .promoted ∧
        ∃ sock now, next = joinedBy pm (newcomer pm sock p.peer now false) := by
      split at stepped
      · cases stepped
        exact Or.inl ⟨by simp, rfl⟩
      · have advanced := advanceOutbound_joined env p (reventsAt pfds at_) out
          (show pm.promoted < 2 ^ 32 by omega)
        rw [stepped] at advanced
        exact advanced
    cases verdict with
    | keep =>
      obtain ⟨-, same⟩ := outcome.resolve_right (by simp)
      subst same
      rw [if_neg (by simp), if_pos rfl, List.map_cons, same_peer]
      obtain ⟨more, kept, still, passed, members⟩ := ih (at_ + 1) events (front ++ [key p.peer])
        (by simpa using addressed) strangers (by omega)
      exact ⟨more, by simpa using kept, still, passed, members⟩
    | drop =>
      obtain ⟨-, same⟩ := outcome.resolve_right (by simp)
      subst same
      rw [if_pos rfl, if_neg (by simp)]
      obtain ⟨more, kept, still, passed, members⟩ := ih (at_ + 1) events front addressed.forget
        (strangers.forget _) (show next.promoted + rest.length ≤ _ by omega)
      exact ⟨more, kept, still, (Passed.forget next _).trans passed, members⟩
    | promoted =>
      obtain ⟨-, sock, now, same⟩ := outcome.resolve_left (by simp)
      subst same
      rw [if_neg (by simp), if_neg (by simp)]
      obtain ⟨more, kept, still, passed, members⟩ := ih (at_ + 1) events front
        (addressed.connect (show pm.promoted < 2 ^ 32 by omega) sock now)
        (strangers.joined addressed _ (fun id low => mem_insert_promoted low)
          (fun outside => absurd (Finset.mem_insert_self _ _) outside))
        (by show pm.promoted + 1 + rest.length ≤ _; omega)
      exact ⟨more, kept, still, (addressed.joined _).trans passed, members_since passed.more members⟩

def waiting (pm : PeerManager) : List Bytes :=
  pm.candidates.map key ++ pm.outbound.map (fun p => key p.peer)

theorem expired_addressed (now : Time) (pending : List PendingOutbound) (front : List Bytes)
    (addressed : Addressed pm (front ++ pending.map (fun p => key p.peer)) ids) :
    Addressed
      { pm with
        known := (pending.filter (fun p => decide (p.deadline ≤ now))).foldl
          (fun known p => known.erase (key p.peer)) pm.known }
      (front ++ (pending.filter (fun p => decide (¬ p.deadline ≤ now))).map (fun p => key p.peer)) ids := by
  induction pending generalizing pm front with
  | nil => exact addressed
  | cons p rest ih =>
    rw [List.map_cons] at addressed
    by_cases late : p.deadline ≤ now
    · rw [List.filter_cons_of_pos (by simpa using late), List.filter_cons_of_neg (by simpa using late),
        List.foldl_cons]
      exact ih front addressed.forget
    · rw [List.filter_cons_of_neg (by simpa using late), List.filter_cons_of_pos (by simpa using late),
        List.map_cons]
      have rest_kept := ih (front ++ [key p.peer]) (by simpa using addressed)
      simpa using rest_kept

theorem dialLoop_addressed (env : Env) (candidates : List Peer) (attempt : Nat)
    (addressed : Addressed pm (candidates.map key ++ pm.outbound.map (fun p => key p.peer)) ids) :
    Addressed (dialLoop env candidates attempt pm) (waiting (dialLoop env candidates attempt pm)) ids := by
  induction candidates generalizing attempt pm with
  | nil => exact addressed.frame rfl rfl rfl (fun _ => rfl)
  | cons p rest ih =>
    rw [dialLoop]
    split
    · dsimp only
      split
      · have freed : Addressed { pm with known := pm.known.erase (key p) }
            ([] ++ (rest.map key ++ pm.outbound.map (fun p => key p.peer))) ids := addressed.forget
        exact ih (attempt + 1) freed
      · rename_i o dialled
        have same : o.peer = p := by
          split at dialled
          · cases dialled
          · exact startDial_peer dialled
        refine ih (attempt + 1) (addressed.frame rfl rfl rfl ?_)
        intro k
        simp only [List.map_append, List.map_cons, List.map_nil, same, List.count_append, List.count_cons,
          List.cons_append, List.count_nil]
        omega
    · exact addressed.frame rfl rfl rfl (fun _ => rfl)

theorem queuePeers_addressed (peers : List Peer) (addressed : Addressed pm (waiting pm) ids) :
    Addressed (queuePeers peers pm) (waiting (queuePeers peers pm)) ids := by
  induction peers generalizing pm with
  | nil => exact addressed
  | cons p peers ih =>
    rw [queuePeers]
    split
    · exact addressed
    · split
      · exact ih addressed
      · rename_i absent
        refine ih ⟨?_, addressed.names, addressed.old⟩
        intro k
        have count := addressed.count k
        simp only [waiting, List.map_append, List.map_cons, List.map_nil, List.count_append, List.count_cons,
          List.count_nil] at count ⊢
        by_cases here : key p = k
        · subst here
          have none_yet : listed pm.known (key p) = 0 := if_neg absent
          rw [listed_insert_self, beq_self_eq_true, if_pos rfl]
          omega
        · rw [listed_insert_other (Ne.symm here), beq_eq_false_iff_ne.mpr here, if_neg (by decide)]
          omega

theorem dropAll_waiting (pm : PeerManager) (out : List PeerEvent) (dropped : List Nat) :
    waiting (pm.dropAll out dropped).1 = waiting pm := by
  induction dropped generalizing pm out with
  | nil => rfl
  | cons id rest ih =>
    rw [PeerManager.dropAll]
    dsimp only
    rw [ih, PeerManager.drop]
    split <;> rfl

theorem acceptReady_addressed (env : Env) (pfds : List PollFd) (addressed : Addressed pm (waiting pm) ids) :
    Addressed (if pm.listenSock ≠ none ∧ reventsAt pfds 0 &&& pollIn ≠ 0 then acceptNew env pm else pm)
      (waiting (if pm.listenSock ≠ none ∧ reventsAt pfds 0 &&& pollIn ≠ 0 then acceptNew env pm else pm))
      ids := by
  have all : ∀ (accepts : List Accepted) (start : PeerManager), Addressed start (waiting start) ids →
      Addressed (accepts.foldl (acceptOne env) start) (waiting (accepts.foldl (acceptOne env) start)) ids := by
    intro accepts
    induction accepts with
    | nil => exact fun _ kept => kept
    | cons a accepts ih =>
      intro start kept
      refine ih (acceptOne env start a) ?_
      unfold acceptOne
      split
      · exact kept
      · split
        · exact kept
        · exact kept.frame rfl rfl rfl (fun _ => rfl)
  split
  · unfold acceptNew
    split
    · exact addressed
    · exact all env.accepts pm addressed
  · exact addressed

theorem enqueue_keeps (c : PeerConnection) (bytes : Bytes) :
    (c.enqueue bytes).id = c.id ∧ (c.enqueue bytes).peer = c.peer := ⟨rfl, rfl⟩

theorem settled_addressed (env : Env) (pfds : List PollFd) (now waited dialled : Time)
    (addressed : Addressed pm (waiting pm) ids) :
    let expired := expireOutbound (expireInbound (pm.keepAlives now) kHandshakeTimeout waited) dialled
    let ready := if expired.listenSock ≠ none ∧ reventsAt pfds 0 &&& pollIn ≠ 0 then acceptNew env expired
      else expired
    Addressed (dialMore env ready) (waiting (dialMore env ready)) ids := by
  intro expired ready
  have pinged : Steady pm (pm.keepAlives now) := by
    refine update_steady pm _ ?_
    intro id c
    split
    · exact enqueue_keeps c _
    · exact ⟨rfl, rfl⟩
  have left : Addressed (expireInbound (pm.keepAlives now) kHandshakeTimeout waited)
      (pm.candidates.map key ++ pm.outbound.map (fun p => key p.peer)) ids :=
    (addressed.steady pinged).frame rfl rfl rfl (fun _ => rfl)
  have kept : Addressed expired (waiting expired) ids :=
    (expired_addressed dialled pm.outbound (pm.candidates.map key) left).frame rfl rfl rfl (fun _ => rfl)
  exact dialLoop_addressed env ready.candidates 0 (acceptReady_addressed env pfds kept)

theorem passes_addressed (env : Env) (pfds : List PollFd) (addressed : Addressed pm (waiting pm) ids)
    (strangers : Strangers pm ids) (apart : ∀ p ∈ pm.inbound, key p.peer ∉ pm.known)
    (few : pm.promoted + pm.inbound.length + pm.outbound.length ≤ 2 ^ 32) :
    let waited := inboundPass env pfds pm []
    let dialled := (outboundPass env pfds waited.1 waited.2).1
    ∃ more, Addressed dialled (waiting dialled) more ∧ Strangers dialled more ∧
      ∀ id c, dialled.conns.find? id = some c → (id ∈ ids ∪ promotedOut env pfds pm ↔ id ∈ more) := by
  intro waited dialled
  obtain ⟨early, apart_still, passed, most⟩ := inboundLoop_addressed env pfds pm.inbound pm.inboundAt []
    addressed strangers apart (by omega)
  have candidates : waited.1.candidates = pm.candidates := passed.candidates
  have outbound : waited.1.outbound = pm.outbound := passed.outbound
  have start : Addressed waited.1
      (waited.1.candidates.map key ++ waited.1.outbound.map (fun p => key p.peer)) ids := by
    rw [candidates, outbound]
    exact early.frame rfl rfl rfl (fun _ => rfl)
  have room : waited.1.promoted + waited.1.outbound.length ≤ 2 ^ 32 := by
    rw [outbound]
    exact Nat.le_trans (Nat.add_le_add_right most _) few
  obtain ⟨more, late, strangers_late, dialing, members⟩ := outboundLoop_addressed env pfds waited.1.outbound
    waited.1.outboundAt waited.2 (waited.1.candidates.map key) start apart_still room
  have queued : dialled.candidates = waited.1.candidates := dialing.candidates
  refine ⟨more, ?_, strangers_late, ?_⟩
  · rw [waiting, queued]
    exact late.frame rfl rfl rfl (fun _ => rfl)
  · intro id c found
    have new : id ∈ promotedOut env pfds pm ↔ id ∉ waited.1.conns.keys := by
      simp only [promotedOut, List.mem_toFinset, List.mem_filter, decide_eq_true_iff]
      exact ⟨fun both => both.2, fun absent => ⟨(Table.find_keys _ _).mpr ⟨c, found⟩, absent⟩⟩
    have low : id < dialled.promoted := (late.names id c found).2
    rw [Finset.mem_union, new, members]
    constructor
    · rintro (old | absent)
      · exact Or.inl old
      · rcases dialing.fresh id c found with there | fresh
        · exact absurd ((Table.find_keys _ _).mpr ⟨c, there⟩) absent
        · exact Or.inr ⟨fresh, low⟩
    · rintro (old | ⟨fresh, -⟩)
      · exact Or.inl old
      · refine Or.inr (fun present => ?_)
        obtain ⟨d, there⟩ := (Table.find_keys _ _).mp present
        exact absurd (start.names id d there).2 (Nat.not_lt.mpr fresh)

theorem handleEvents_addressed (env : Env) (pfds : List PollFd) (addressed : Addressed pm (waiting pm) ids)
    (strangers : Strangers pm ids) (apart : ∀ p ∈ pm.inbound, key p.peer ∉ pm.known)
    (few : pm.promoted + pm.inbound.length + pm.outbound.length ≤ 2 ^ 32) :
    ∃ more, Addressed (handleEvents env pfds pm).1 (waiting (handleEvents env pfds pm).1) more ∧
      ∀ id c, (handleEvents env pfds pm).1.conns.find? id = some c →
        (id ∈ ids ∪ promotedOut env pfds pm ↔ id ∈ more) := by
  obtain ⟨more, dialled, apart_still, members⟩ := passes_addressed env pfds addressed strangers apart few
  have served := reads_steady (reads_serveLoop env pfds
    (outboundPass env pfds (inboundPass env pfds pm []).1 (inboundPass env pfds pm []).2).1.ids
    (outboundPass env pfds (inboundPass env pfds pm []).1 (inboundPass env pfds pm []).2).1.connsAt
    (outboundPass env pfds (inboundPass env pfds pm []).1 (inboundPass env pfds pm []).2).1
    (outboundPass env pfds (inboundPass env pfds pm []).1 (inboundPass env pfds pm []).2).2)
  refine ⟨more, ?_⟩
  unfold handleEvents servePass
  dsimp only at served ⊢
  generalize serveLoop env pfds _ _ _ _ = result at served ⊢
  obtain ⟨next, events, toDrop⟩ := result
  dsimp only at served ⊢
  have kept : Addressed next (waiting next) more := by
    rw [waiting, served.candidates, served.outbound]
    exact dialled.steady served
  have swept := kept.dropAll (apart_still.steady served)
    (toDrop ++ idlePeers next env.order (env.clock .sweep)) events
  rw [← dropAll_waiting next events (toDrop ++ idlePeers next env.order (env.clock .sweep))] at swept
  have gone := dropAll_conns next events (toDrop ++ idlePeers next env.order (env.clock .sweep))
  generalize next.dropAll events (toDrop ++ idlePeers next env.order (env.clock .sweep)) = left
    at swept gone ⊢
  obtain ⟨rest, all⟩ := left
  dsimp only at swept gone ⊢
  refine ⟨settled_addressed env pfds _ _ _ swept, ?_⟩
  intro id c found
  have last : Apart (rest.keepAlives (env.clock .sweep)) _ :=
    ((expire_apart _ kHandshakeTimeout (env.clock .expireInbound) (env.clock .expireOutbound)).trans
      (acceptReady_apart env pfds _)).trans (dialMore_apart env _)
  rw [last.conns, keepAlives, Table.find_update] at found
  obtain ⟨d, present, -⟩ := Option.map_eq_some_iff.mp found
  rw [gone] at present
  split at present
  · cases present
  · obtain ⟨old, there, -⟩ := served.conns id d present
    exact members id old there

end Stages

/-- The calls that keep the book: identifiers are not used up, and whoever connected to us or
is about to has an address of its own. -/
def Fits (d : Dialing) : Op → Prop
  | .handleEvents _ _ =>
    d.pm.promoted + d.pm.inbound.length + d.pm.outbound.length ≤ 2 ^ 32 ∧
      Strangers d.pm d.dialled ∧ ∀ p ∈ d.pm.inbound, key p.peer ∉ d.pm.known
  | .ban _ _ => Strangers d.pm d.dialled
  | _ => True

def Fresh (d : Dialing) : Prop :=
  (∃ torrent peerId listenSock maxPeers, create torrent peerId listenSock maxPeers = .ok d.pm) ∧
    d.dialled = ∅

theorem Addressed.live {pm : PeerManager} {addrs : List Bytes} {ids others : Finset Nat}
    (addressed : Addressed pm addrs ids)
    (same : ∀ id c, pm.conns.find? id = some c → (id ∈ others ↔ id ∈ ids)) :
    Addressed pm addrs (others.filter (fun id => id ∈ pm.conns.keys)) := by
  refine addressed.relabel ?_ ?_
  · intro id c found
    rw [Finset.mem_filter, ← same id c found]
    exact ⟨fun both => both.1, fun member => ⟨member, (Table.find_keys _ _).mpr ⟨c, found⟩⟩⟩
  · intro id member
    obtain ⟨c, found⟩ := (Table.find_keys _ _).mp (Finset.mem_filter.mp member).2
    exact (addressed.names id c found).2

theorem sendNoted_keeps (c : PeerConnection) (now : Time) (message : Message) :
    (sendNoted c now message).id = c.id ∧ (sendNoted c now message).peer = c.peer := by
  cases message <;> exact ⟨rfl, rfl⟩

theorem ban_addressed (d : Dialing) (host : Bytes) (order : List Nat)
    (addressed : Addressed d.pm (waiting d.pm) d.dialled) (strangers : Strangers d.pm d.dialled) :
    Addressed (d.pm.ban host order).1 (waiting (d.pm.ban host order).1) d.dialled := by
  by_cases already : host ∈ d.pm.banned
  · rw [ban, if_pos already]
    exact addressed
  · rw [ban_fresh host order already, dropAll_waiting]
    have noted : Addressed { d.pm with banned := insert host d.pm.banned } (waiting d.pm) d.dialled :=
      addressed.frame rfl rfl rfl (fun _ => rfl)
    exact noted.dropAll strangers _ _

/-- One call, over all calls of the interface. -/
theorem dialStep_addressed (d : Dialing) (op : Op) (addressed : Addressed d.pm (waiting d.pm) d.dialled)
    (fits : Fits d op) :
    Addressed (dialStep d op).pm (waiting (dialStep d op).pm) (dialStep d op).dialled := by
  cases op with
  | buildFds order =>
    have kept : Addressed (d.pm.buildFds order).2 (waiting d.pm) d.dialled :=
      addressed.frame rfl rfl rfl (fun _ => rfl)
    exact kept.live (fun _ _ _ => Iff.rfl)
  | handleEvents env pfds =>
    obtain ⟨few, strangers, apart⟩ := fits
    obtain ⟨more, kept, members⟩ := handleEvents_addressed env pfds addressed strangers apart few
    exact kept.live members
  | addPeers env peers =>
    exact (dialLoop_addressed env _ 0 (queuePeers_addressed peers addressed)).live (fun _ _ _ => Iff.rfl)
  | send id message now =>
    exact (addressed.steady (modify_steady d.pm id (fun c => sendNoted c now message)
      (fun c _ => sendNoted_keeps c now message))).live (fun _ _ _ => Iff.rfl)
  | broadcastHave index =>
    exact (addressed.steady (update_steady d.pm (fun _ c => c.enqueue (Message.bytes (.have_ index)))
      (fun _ c => enqueue_keeps c _))).live (fun _ _ _ => Iff.rfl)
  | ban host order => exact (ban_addressed d host order addressed fits).live (fun _ _ _ => Iff.rfl)
  | expire id pending snubbed =>
    exact (addressed.steady (modify_steady d.pm id (fun c => { c with pending := pending, snubbed := snubbed })
      (fun _ _ => ⟨rfl, rfl⟩))).live (fun _ _ _ => Iff.rfl)

theorem within_addressed {d : Dialing}
    (reached : ReachableWithin (fun d op => some (dialStep d op)) Fresh Fits d) :
    Addressed d.pm (waiting d.pm) d.dialled := by
  induction reached with
  | start d begins =>
    obtain ⟨⟨torrent, peerId, listenSock, maxPeers, created⟩, nobody⟩ := begins
    obtain ⟨conns, -, outbound, candidates, known, -⟩ := create_empty created
    refine ⟨?_, ?_, ?_⟩
    · intro k
      rw [waiting, conns, outbound, candidates, known]
      rfl
    · intro id c found
      rw [conns] at found
      cases found
    · intro id member
      rw [nobody] at member
      cases member
  | next d after op _ permitted moves ih =>
    cases moves
    exact dialStep_addressed d op ih permitted

theorem addresses_count {d : Dialing} (addressed : Addressed d.pm (waiting d.pm) d.dialled) (k : Bytes) :
    (addresses d).count k = listed d.pm.known k := by
  have connected : ∀ entries : List (Nat × PeerConnection), (∀ entry ∈ entries, entry.2.id = entry.1) →
      ((entries.filter (fun entry => decide (entry.1 ∈ d.dialled))).map
        (fun entry => key entry.2.peer)).count k =
        (entries.map (fun entry => calls d.dialled k entry.2)).sum := by
    intro entries
    induction entries with
    | nil => exact fun _ => rfl
    | cons entry entries ih =>
      intro named
      have rest := ih (fun other member => named other (List.mem_cons_of_mem _ member))
      have name := named entry (List.mem_cons_self ..)
      rw [List.map_cons, List.sum_cons, calls, name, ← rest]
      by_cases mine : entry.1 ∈ d.dialled
      · rw [List.filter_cons_of_pos (by simpa using mine), List.map_cons, List.count_cons, Nat.add_comm]
        simp only [mine, true_and, beq_iff_eq]
      · rw [List.filter_cons_of_neg (by simpa using mine), if_neg (fun both => mine both.1), Nat.zero_add]
  rw [addresses, List.count_append, connected d.pm.conns.entries, ← addressed.count k]
  · rfl
  · rintro ⟨id, c⟩ member
    exact (addressed.names id c ((Table.find_member _ _ _).mpr member)).1

/-- As long as every call fits, the keys of what is queued, dialing or connected by a dial are
pairwise distinct, `known_` is the set of them, and `add_peers` queues an address exactly when it
is not among them. -/
theorem addresses_exact (d : Dialing)
    (reached : ReachableWithin (fun d op => some (dialStep d op)) Fresh Fits d) :
    (addresses d).Nodup ∧ (∀ k, k ∈ d.pm.known ↔ k ∈ addresses d) ∧
      ∀ p : Peer, d.pm.candidates.length < kMaxCandidates →
        ((queuePeers [p] d.pm).candidates = d.pm.candidates ++ [p] ↔ key p ∉ addresses d) := by
  have count := addresses_count (within_addressed reached)
  have members : ∀ k, k ∈ d.pm.known ↔ k ∈ addresses d := by
    intro k
    rw [← List.count_pos_iff, count, listed_pos]
  refine ⟨?_, members, ?_⟩
  · rw [List.nodup_iff_count_le_one]
    intro k
    rw [count]
    exact listed_le
  · intro p room
    rw [← members]
    by_cases already : key p ∈ d.pm.known
    · simp [queuePeers, Nat.not_le.mpr room, already]
    · simp [queuePeers, Nat.not_le.mpr room, already]

section Example

open Session

def dialEnv (fd : Nat) : Env := { quietEnv with dial := fun _ => .started fd, inetPton := fun _ => true }

def neighbour : Peer := ⟨ascii "h", ascii "1"⟩

def fitting (d : Dialing) : Op → Bool
  | .handleEvents _ _ =>
    decide (d.pm.promoted + d.pm.inbound.length + d.pm.outbound.length ≤ 2 ^ 32) &&
      (d.pm.conns.entries.all (fun entry => decide (entry.1 ∈ d.dialled ∨ key entry.2.peer ∉ d.pm.known)) &&
        d.pm.inbound.all (fun p => decide (key p.peer ∉ d.pm.known)))
  | .ban _ _ => false
  | _ => true

theorem fitting_fits (d : Dialing) (op : Op) (fits : fitting d op = true) : Fits d op := by
  cases op with
  | handleEvents env pfds =>
    simp only [fitting, Bool.and_eq_true, decide_eq_true_eq, List.all_eq_true] at fits
    obtain ⟨few, strangers, waiting⟩ := fits
    refine ⟨few, ?_, waiting⟩
    intro id c found outside
    exact (strangers (id, c) ((Table.find_member _ _ _).mp found)).resolve_left outside
  | ban host order => cases fits
  | _ => exact trivial

def after (check : Dialing → Op → Bool) (ops : List Op) : Option Dialing :=
  (create oneByte (List.replicate 20 7) (some 3) 60).toOption.bind (fun pm =>
    run (guarded (fun d op => some (dialStep d op)) check) ⟨pm, ∅⟩ ops)

theorem after_within {check : Dialing → Op → Bool} {allowed : Dialing → Op → Prop} {ops : List Op} {d : Dialing}
    (passes : ∀ d op, check d op = true → allowed d op) (ran : after check ops = some d) :
    ReachableWithin (fun d op => some (dialStep d op)) Fresh allowed d := by
  obtain ⟨pm, made, moves⟩ := Option.bind_eq_some_iff.mp ran
  have begins : ReachableWithin (fun d op => some (dialStep d op)) Fresh allowed ⟨pm, ∅⟩ :=
    .start _ ⟨⟨_, _, _, _, Torrent.toOption_ok made⟩, rfl⟩
  exact begins.guarded passes moves

/-- A dial and a peer that dials us, up to both handshakes. -/
def meeting : List Op := [
  .addPeers (dialEnv 4) [neighbour],
  .handleEvents { quietEnv with accepts := [⟨5, ascii "g", 1⟩], send := fun _ => .accepted 100 }
    [⟨3, pollIn, pollIn⟩, ⟨4, pollOut, pollOut⟩],
  .buildFds [],
  .handleEvents { quietEnv with recv := fun _ => .data (buildHandshake oneByte (List.replicate 20 8)) }
    [⟨3, pollIn, 0⟩, ⟨5, pollIn, pollIn⟩, ⟨4, pollIn, pollIn⟩]]

def crossing : List Op := [
  .addPeers (dialEnv 4) [neighbour],
  .handleEvents { quietEnv with accepts := [⟨5, ascii "h", 1⟩] } [⟨3, pollIn, pollIn⟩],
  .buildFds [],
  .handleEvents { quietEnv with recv := fun _ => .data (buildHandshake oneByte (List.replicate 20 8)) }
    [⟨3, pollIn, 0⟩, ⟨5, pollIn, pollIn⟩, ⟨4, pollOut, 0⟩],
  .buildFds [],
  .handleEvents { quietEnv with recv := fun _ => .data [] }
    [⟨3, pollIn, 0⟩, ⟨4, pollOut, 0⟩, ⟨5, pollIn, pollIn⟩],
  .addPeers (dialEnv 6) [neighbour]]

end Example

/-- An address that was dialled and is connected is not dialled again when a tracker offers it, and
the peer that dialled us is not in the book. -/
theorem addresses_exact_one_dial :
    ∃ d, ReachableWithin (fun d op => some (dialStep d op)) Fresh Fits d ∧ d.pm.conns.size = 2 ∧
      d.pm.outbound = [] ∧ addresses d = [ascii "h:1"] ∧ ascii "h:1" ∈ d.pm.known ∧ ascii "g:1" ∉ d.pm.known := by
  have seen : (after fitting (meeting ++ [.addPeers (dialEnv 6) [neighbour]])).map (fun d =>
      (d.pm.conns.size, d.pm.outbound.length, addresses d)) = some (2, 0, [ascii "h:1"]) := by
    decide +kernel
  obtain ⟨d, ran, shown⟩ := Option.map_eq_some_iff.mp seen
  simp only [Prod.mk.injEq] at shown
  obtain ⟨two, settled, dialled⟩ := shown
  have reached := after_within fitting_fits ran
  have members := (addresses_exact d reached).2.1
  refine ⟨d, reached, two, List.length_eq_zero_iff.mp settled, dialled, ?_, ?_⟩
  · rw [members, dialled]
    exact List.mem_singleton_self _
  · rw [members, dialled]
    decide

/-- The drop of the inbound connection frees the address of the dial, which is then dialled
a second time. -/
theorem address_dialled_twice :
    ∃ d, Reachable (fun d op => some (dialStep d op)) Fresh d ∧
      addresses d = [ascii "h:1", ascii "h:1"] ∧ ¬ (addresses d).Nodup := by
  have seen : (after (fun _ _ => true) crossing).map addresses = some [ascii "h:1", ascii "h:1"] := by decide +kernel
  obtain ⟨d, ran, twice⟩ := Option.map_eq_some_iff.mp seen
  have within : ReachableWithin (fun d op => some (dialStep d op)) Fresh (fun _ _ => True) d :=
    after_within (fun _ _ _ => trivial) ran
  exact ⟨d, within.reachable, twice, by rw [twice]; simp⟩

end TorrentPeer.PeerManager
