import TorrentPeer.Runtime.PeerCalls

/-! The handshake passes of a round, entry by entry: an entry waits on, becomes a peer or is
closed, by what `poll` said of its own descriptor and nothing else. -/

namespace TorrentPeer.PeerManager

open Wire Transition

inductive Turn (α : Type) where
  | waits (entry : α)
  | joins (sock : Socket) (peer : Peer)
  | closes

namespace Turn

variable {α : Type}

def waiting : Turn α → Option α
  | .waits entry => some entry
  | _ => none

def joining : Turn α → Option (Socket × Peer)
  | .joins sock peer => some (sock, peer)
  | _ => none

end Turn

def greet {α : Type} (env : Env) (pm : PeerManager) (sock : Socket) (peer : Peer) (buffer : Bytes)
    (keep : Bytes → α) : Turn α :=
  match readHandshake env sock.fd buffer with
  | (.keep, more) => .waits (keep more)
  | (.drop, _) => .closes
  | (.promoted, hs) =>
    if pm.verifyHandshake hs peer = false then .closes else .joins { sock with received := hs } peer

def inboundTurn (env : Env) (pm : PeerManager) (rev : Nat) (p : PendingInbound) : Turn PendingInbound :=
  if rev = 0 then .waits p
  else if readable rev = true then greet env pm p.sock p.peer p.buffer (fun more => { p with buffer := more })
  else .closes

def connected (env : Env) (pm : PeerManager) (p : PendingOutbound) : PendingOutbound :=
  let taken := match env.send p.sock.fd with
    | .accepted count => (buildHandshake pm.torrent pm.peerId).take count
    | _ => []
  { p with
    phase := .handshaking
    sock := { p.sock with sent := p.sock.sent ++ taken }
    deadline := env.clock (.connected p.sock.fd) + kHandshakeTimeout }

def outboundTurn (env : Env) (pm : PeerManager) (rev : Nat) (p : PendingOutbound) : Turn PendingOutbound :=
  if rev = 0 then .waits p
  else
    match p.phase with
    | .connecting =>
      if env.soError p.sock.fd = true then .closes else .waits (connected env pm p)
    | .handshaking =>
      if readable rev = false then .waits p
      else greet env pm p.sock p.peer p.buffer (fun more => { p with buffer := more })

def admitOne (env : Env) (answers : Bool) (w : World) (newcomer : Socket × Peer) : World :=
  let (pm, out) := w.pm.promote newcomer.1 newcomer.2 (env.clock (.promote newcomer.1.fd)) w.out
  ⟨if answers = true then pm.sendTo (w.pm.promoted % 2 ^ 32) (.handshake w.pm.torrent w.pm.peerId) else pm, out⟩

section Steps

variable {env : Env} {pm start : PeerManager}

theorem greet_setting {α : Type} (same : SameSetting start pm) (sock : Socket) (peer : Peer) (buffer : Bytes)
    (keep : Bytes → α) : greet env pm sock peer buffer keep = greet env start sock peer buffer keep := by
  have verdicts : pm.verifyHandshake = start.verifyHandshake := by
    funext hs peer
    rw [verifyHandshake, verifyHandshake, same.torrent, same.peerId, same.banned]
  rw [greet, greet, verdicts]

theorem inboundTurn_setting (same : SameSetting start pm) (rev : Nat) (p : PendingInbound) :
    inboundTurn env pm rev p = inboundTurn env start rev p := by
  rw [inboundTurn, inboundTurn, greet_setting same]

theorem outboundTurn_setting (same : SameSetting start pm) (rev : Nat) (p : PendingOutbound) :
    outboundTurn env pm rev p = outboundTurn env start rev p := by
  rw [outboundTurn, outboundTurn, connected, connected, greet_setting same, same.torrent, same.peerId]

theorem admitOne_setting (answers : Bool) (w : World) (newcomer : Socket × Peer) :
    SameSetting w.pm (admitOne env answers w newcomer).pm := by
  cases answers <;> exact ⟨rfl, rfl, rfl, rfl⟩

theorem inbound_step (rev : Nat) (p : PendingInbound) (out : List PeerEvent) :
    (if rev = 0 then (some p, pm, out) else if readable rev = true then advanceInbound env pm p out
      else (none, pm, out)) =
      match inboundTurn env pm rev p with
      | .waits q => (some q, pm, out)
      | .joins sock peer =>
        (none, (admitOne env true ⟨pm, out⟩ (sock, peer)).pm, (admitOne env true ⟨pm, out⟩ (sock, peer)).out)
      | .closes => (none, pm, out) := by
  unfold inboundTurn
  split
  · rfl
  · split
    · unfold advanceInbound greet
      generalize readHandshake env p.sock.fd p.buffer = read
      obtain ⟨verdict, hs⟩ := read
      cases verdict with
      | keep => rfl
      | drop => rfl
      | promoted =>
        dsimp only
        split
        · rfl
        · rfl
    · rfl

theorem outbound_step (rev : Nat) (p : PendingOutbound) (out : List PeerEvent) :
    (if rev = 0 then (.keep, p, pm, out) else advanceOutbound env pm p rev out) =
      match outboundTurn env pm rev p with
      | .waits q => (.keep, q, pm, out)
      | .joins sock peer =>
        (.promoted, p, (admitOne env false ⟨pm, out⟩ (sock, peer)).pm,
          (admitOne env false ⟨pm, out⟩ (sock, peer)).out)
      | .closes => (.drop, p, pm, out) := by
  unfold outboundTurn
  split
  · rfl
  · unfold advanceOutbound
    cases p.phase with
    | connecting =>
      dsimp only
      split
      · rfl
      · rfl
    | handshaking =>
      dsimp only
      split
      · rfl
      · unfold greet
        generalize readHandshake env p.sock.fd p.buffer = read
        obtain ⟨verdict, hs⟩ := read
        cases verdict with
        | keep => rfl
        | drop => rfl
        | promoted =>
          dsimp only
          split
          · rfl
          · rfl

theorem greet_waits {α : Type} {sock : Socket} {peer : Peer} {buffer : Bytes} {keep : Bytes → α} {q : α}
    (turned : greet env pm sock peer buffer keep = .waits q) :
    ∃ more, readHandshake env sock.fd buffer = (.keep, more) ∧ q = keep more := by
  unfold greet at turned
  split at turned
  · rename_i more read
    exact ⟨more, read, (Turn.waits.inj turned).symm⟩
  · cases turned
  · split at turned <;> cases turned

theorem greet_joins {α : Type} {sock joined : Socket} {peer other : Peer} {buffer : Bytes} {keep : Bytes → α}
    (turned : greet env pm sock peer buffer keep = .joins joined other) :
    ∃ hs, joined = { sock with received := hs } ∧ other = peer := by
  unfold greet at turned
  split at turned
  · cases turned
  · cases turned
  · split at turned
    · cases turned
    · cases turned
      exact ⟨_, rfl, rfl⟩

theorem inboundTurn_waits {rev : Nat} {p q : PendingInbound} (turned : inboundTurn env pm rev p = .waits q) :
    q = p ∨ ∃ more, readHandshake env p.sock.fd p.buffer = (.keep, more) ∧ q = { p with buffer := more } := by
  unfold inboundTurn at turned
  split at turned
  · exact Or.inl (Turn.waits.inj turned).symm
  · split at turned
    · exact Or.inr (greet_waits turned)
    · cases turned

theorem inboundTurn_joins {rev : Nat} {p : PendingInbound} {sock : Socket} {peer : Peer}
    (turned : inboundTurn env pm rev p = .joins sock peer) : ∃ hs, sock = { p.sock with received := hs } := by
  unfold inboundTurn at turned
  split at turned
  · cases turned
  · split at turned
    · obtain ⟨hs, same, -⟩ := greet_joins turned
      exact ⟨hs, same⟩
    · cases turned

theorem outboundTurn_waits {rev : Nat} {p q : PendingOutbound} (turned : outboundTurn env pm rev p = .waits q) :
    q = p ∨ (p.phase = .connecting ∧ rev ≠ 0 ∧ env.soError p.sock.fd = false ∧ q = connected env pm p) ∨
      ∃ more, readHandshake env p.sock.fd p.buffer = (.keep, more) ∧ q = { p with buffer := more } := by
  unfold outboundTurn at turned
  split at turned
  · exact Or.inl (Turn.waits.inj turned).symm
  · rename_i ready
    split at turned
    · rename_i phase
      split at turned
      · cases turned
      · rename_i up
        exact Or.inr (Or.inl ⟨phase, ready, eq_false_of_ne_true up, (Turn.waits.inj turned).symm⟩)
    · split at turned
      · exact Or.inl (Turn.waits.inj turned).symm
      · exact Or.inr (Or.inr (greet_waits turned))

theorem outboundTurn_joins {rev : Nat} {p : PendingOutbound} {sock : Socket} {peer : Peer}
    (turned : outboundTurn env pm rev p = .joins sock peer) :
    p.phase = .handshaking ∧ ∃ hs, sock = { p.sock with received := hs } := by
  unfold outboundTurn at turned
  split at turned
  · cases turned
  · split at turned
    · split at turned <;> cases turned
    · rename_i phase
      split at turned
      · cases turned
      · obtain ⟨hs, same, -⟩ := greet_joins turned
        exact ⟨phase, hs, same⟩

end Steps

section Loops

variable (env : Env) (pfds : List PollFd)

theorem mapIdx_shift {α β : Type} (turn : Nat → α → β) (first : α) (rest : List α) (at_ : Nat) :
    (first :: rest).mapIdx (fun i p => turn (reventsAt pfds (at_ + i)) p) =
      turn (reventsAt pfds at_) first :: rest.mapIdx (fun i p => turn (reventsAt pfds (at_ + 1 + i)) p) := by
  rw [List.mapIdx_cons]
  have shift : (fun i p => turn (reventsAt pfds (at_ + (i + 1))) p) =
      fun i p => turn (reventsAt pfds (at_ + 1 + i)) p := by
    funext i p
    rw [Nat.add_assoc, Nat.add_comm 1 i]
  rw [shift]
  rfl

/-- The loop over `inbound_`: survivors in order, and promotions in order. -/
theorem inboundLoop_turns (start : PeerManager) (pending : List PendingInbound) (at_ : Nat) (pm : PeerManager)
    (out : List PeerEvent) (same : SameSetting start pm) :
    let turns := pending.mapIdx (fun i p => inboundTurn env start (reventsAt pfds (at_ + i)) p)
    (inboundLoop env pfds pending at_ pm out).1 = turns.filterMap Turn.waiting ∧
      World.mk (inboundLoop env pfds pending at_ pm out).2.1 (inboundLoop env pfds pending at_ pm out).2.2 =
        (turns.filterMap Turn.joining).foldl (admitOne env true) ⟨pm, out⟩ := by
  induction pending generalizing at_ pm out with
  | nil => exact ⟨rfl, rfl⟩
  | cons p rest ih =>
    dsimp only
    rw [mapIdx_shift, ← inboundTurn_setting same]
    simp only [inboundLoop]
    rw [inbound_step]
    cases turn : inboundTurn env pm (reventsAt pfds at_) p with
    | waits q =>
      obtain ⟨stay, joined⟩ := ih (at_ + 1) pm out same
      exact ⟨congrArg (q :: ·) stay, joined⟩
    | joins sock peer =>
      exact ih (at_ + 1) _ _ (same.trans (admitOne_setting true ⟨pm, out⟩ (sock, peer)))
    | closes => exact ih (at_ + 1) pm out same

theorem outboundLoop_turns (start : PeerManager) (pending : List PendingOutbound) (at_ : Nat) (pm : PeerManager)
    (out : List PeerEvent) (same : SameSetting start pm) :
    let turns := pending.mapIdx (fun i p => outboundTurn env start (reventsAt pfds (at_ + i)) p)
    (outboundLoop env pfds pending at_ pm out).1 = turns.filterMap Turn.waiting ∧
      ∃ known, World.mk (outboundLoop env pfds pending at_ pm out).2.1
      (outboundLoop env pfds pending at_ pm out).2.2 =
        (turns.filterMap Turn.joining).foldl (admitOne env false) ⟨{ pm with known := known }, out⟩ := by
  induction pending generalizing at_ pm out with
  | nil => exact ⟨rfl, pm.known, rfl⟩
  | cons p rest ih =>
    dsimp only
    rw [mapIdx_shift, ← outboundTurn_setting same]
    simp only [outboundLoop]
    rw [outbound_step]
    cases turn : outboundTurn env pm (reventsAt pfds at_) p with
    | waits q =>
      obtain ⟨stay, known, joined⟩ := ih (at_ + 1) pm out same
      exact ⟨congrArg (q :: ·) stay, known, joined⟩
    | joins sock peer =>
      obtain ⟨stay, known, joined⟩ := ih (at_ + 1) _ (admitOne env false ⟨pm, out⟩ (sock, peer)).out
        (same.trans (admitOne_setting false ⟨pm, out⟩ (sock, peer)))
      exact ⟨stay, known, joined⟩
    | closes =>
      have forgotten : SameSetting start { pm with known := pm.known.erase (key p.peer) } :=
        ⟨same.torrent, same.peerId, same.banned, same.ids⟩
      obtain ⟨stay, known, joined⟩ := ih (at_ + 1) _ out forgotten
      exact ⟨stay, known, joined⟩

end Loops

section Admission

variable (env : Env)

def KeepsSockets (before after : PeerManager) : Prop :=
  ∀ id c, before.conns.find? id = some c → ∃ d, after.conns.find? id = some d ∧ d.sock.fd = c.sock.fd

theorem KeepsSockets.refl (pm : PeerManager) : KeepsSockets pm pm := fun _ c found => ⟨c, found, rfl⟩

theorem KeepsSockets.trans {first second third : PeerManager} (early : KeepsSockets first second)
    (late : KeepsSockets second third) : KeepsSockets first third := by
  intro id c found
  obtain ⟨middle, present, same⟩ := early id c found
  obtain ⟨last, there, still⟩ := late id middle present
  exact ⟨last, there, still.trans same⟩

theorem modify_sockets (pm : PeerManager) (id : Nat) (change : PeerConnection → PeerConnection)
    (keeps : ∀ c, pm.conns.find? id = some c → (change c).sock.fd = c.sock.fd) :
    KeepsSockets pm { pm with conns := pm.conns.modify id change } := by
  intro other c found
  dsimp only
  rw [Table.find_modify, found]
  split
  · rename_i here
    exact ⟨change c, rfl, keeps c (here ▸ found)⟩
  · exact ⟨c, rfl, rfl⟩

def Numbered (pm : PeerManager) : Prop := ∀ id c, pm.conns.find? id = some c → id < pm.promoted

theorem admitOne_frame (answers : Bool) (w : World) (newcomer : Socket × Peer) :
    (admitOne env answers w newcomer).pm =
      { w.pm with
        conns := (admitOne env answers w newcomer).pm.conns
        promoted := w.pm.promoted + 1 } ∧
    (admitOne env answers w newcomer).out = w.out ++ [.joined (w.pm.promoted % 2 ^ 32)] := by
  cases answers <;> exact ⟨rfl, rfl⟩

theorem admitOne_conns (answers : Bool) (w : World) (sock : Socket) (peer : Peer)
    (absent : w.pm.conns.find? (w.pm.promoted % 2 ^ 32) = none) :
    (admitOne env answers w (sock, peer)).pm.conns = w.pm.conns.emplace (w.pm.promoted % 2 ^ 32)
      (newcomer w.pm sock peer (env.clock (.promote sock.fd)) answers) := by
  cases answers with
  | false => rfl
  | true =>
    simp only [admitOne, if_true, promote, sendTo, Table.emplace_modify _ _ _ _ absent]
    rfl

theorem admitOne_taken (answers : Bool) (w : World) (sock : Socket) (peer : Peer) {old : PeerConnection}
    (taken : w.pm.conns.find? (w.pm.promoted % 2 ^ 32) = some old) :
    (admitOne env answers w (sock, peer)).pm.conns =
      if answers = true then w.pm.conns.modify (w.pm.promoted % 2 ^ 32)
        (fun c => c.enqueue (Message.bytes (.handshake w.pm.torrent w.pm.peerId)))
      else w.pm.conns := by
  have kept : (w.pm.promote sock peer (env.clock (.promote sock.fd)) w.out).1.conns = w.pm.conns := by
    rw [promote]
    exact Table.emplace_present _ _ _ old taken
  cases answers with
  | false => exact kept
  | true =>
    rw [if_pos rfl, ← kept]
    rfl

theorem admitOne_sockets (answers : Bool) (w : World) (newcomer : Socket × Peer) :
    KeepsSockets w.pm (admitOne env answers w newcomer).pm := by
  have placed : KeepsSockets w.pm (w.pm.promote newcomer.1 newcomer.2 (env.clock (.promote newcomer.1.fd))
    w.out).1 := by
    intro id c found
    simp only [promote, Table.find_emplace_or]
    split
    · rename_i here
      rw [← here, found]
      exact ⟨c, rfl, rfl⟩
    · exact ⟨c, found, rfl⟩
  cases answers with
  | false => exact placed
  | true => exact placed.trans (modify_sockets _ _ _ (fun _ _ => rfl))

theorem newcomer_sock (pm : PeerManager) (sock : Socket) (peer : Peer) (now : Time) (answers : Bool) :
    (newcomer pm sock peer now answers).sock = sock := by
  cases answers <;> rfl

/-- The effect of some promotions in a row. -/
structure Admission (before after : World) (newcomers : List (Socket × Peer)) : Prop where
  frame : after.pm =
    { before.pm with
      conns := after.pm.conns
      promoted := before.pm.promoted + newcomers.length }
  out : after.out = before.out ++ (List.range newcomers.length).map (fun j =>
    .joined ((before.pm.promoted + j) % 2 ^ 32))
  sockets : KeepsSockets before.pm after.pm
  /-- As long as no number comes around again. -/
  placed : Numbered before.pm → before.pm.promoted + newcomers.length ≤ 2 ^ 32 →
    Numbered after.pm ∧ (∀ id c, before.pm.conns.find? id = some c → after.pm.conns.find? id = some c) ∧
      ∀ j sock peer, newcomers[j]? = some (sock, peer) →
        ∃ c, after.pm.conns.find? (before.pm.promoted + j) = some c ∧ c.sock = sock ∧ c.peer = peer

theorem Admission.refl (w : World) : Admission w w [] :=
  ⟨rfl, by simp, KeepsSockets.refl w.pm, fun numbered _ => ⟨numbered, fun _ _ found => found, nofun⟩⟩

theorem admitOne_admission (answers : Bool) (w : World) (sock : Socket) (peer : Peer) :
    Admission w (admitOne env answers w (sock, peer)) [(sock, peer)] := by
  obtain ⟨frame, out⟩ := admitOne_frame env answers w (sock, peer)
  refine ⟨frame, by rw [out]; rfl, admitOne_sockets env answers w (sock, peer), ?_⟩
  intro numbered few
  rw [List.length_singleton] at few
  have small : w.pm.promoted % 2 ^ 32 = w.pm.promoted := Nat.mod_eq_of_lt (by omega)
  have absent : w.pm.conns.find? (w.pm.promoted % 2 ^ 32) = none := by
    rw [small]
    cases found : w.pm.conns.find? w.pm.promoted with
    | none => rfl
    | some c => exact absurd (numbered _ c found) (Nat.lt_irrefl _)
  have conns := admitOne_conns env answers w sock peer absent
  have promoted : (admitOne env answers w (sock, peer)).pm.promoted = w.pm.promoted + 1 := by rw [frame]
  rw [small] at conns absent
  refine ⟨?_, ?_, ?_⟩
  · intro id c found
    rw [conns, Table.find_emplace _ _ _ _ absent] at found
    rw [promoted]
    split at found
    · omega
    · exact Nat.lt_succ_of_lt (numbered id c found)
  · intro id c found
    rw [conns, Table.find_emplace _ _ _ _ absent, if_neg, found]
    intro here
    rw [here, absent] at found
    cases found
  · intro j s p listed
    cases j with
    | zero =>
      cases listed
      refine ⟨newcomer w.pm sock peer (env.clock (.promote sock.fd)) answers, ?_, newcomer_sock .., newcomer_peer ..⟩
      rw [conns, Table.find_emplace _ _ _ _ absent, if_pos (Nat.add_zero _)]
    | succ j => cases listed

theorem Admission.trans {first second third : World} {early late : List (Socket × Peer)}
    (one : Admission first second early) (two : Admission second third late) :
    Admission first third (early ++ late) := by
  have promoted : second.pm.promoted = first.pm.promoted + early.length := by rw [one.frame]
  refine ⟨?_, ?_, one.sockets.trans two.sockets, ?_⟩
  · rw [two.frame, promoted, List.length_append, ← Nat.add_assoc]
    rw [one.frame]
  · rw [two.out, one.out, promoted, List.length_append, List.range_add, List.map_append, List.map_map,
      List.append_assoc]
    simp only [Function.comp_def, Nat.add_assoc]
  · intro numbered few
    rw [List.length_append] at few
    obtain ⟨between, kept, joined⟩ := one.placed numbered (by omega)
    obtain ⟨after, still, later⟩ := two.placed between (by omega)
    refine ⟨after, fun id c found => still id c (kept id c found), ?_⟩
    intro j sock peer listed
    by_cases low : j < early.length
    · rw [List.getElem?_append_left low] at listed
      obtain ⟨c, found, same⟩ := joined j sock peer listed
      exact ⟨c, still _ c found, same⟩
    · rw [List.getElem?_append_right (Nat.not_lt.mp low)] at listed
      obtain ⟨c, found, same⟩ := later (j - early.length) sock peer listed
      refine ⟨c, ?_, same⟩
      rwa [promoted, Nat.add_assoc, Nat.add_sub_cancel' (Nat.not_lt.mp low)] at found

theorem admit_all (answers : Bool) (newcomers : List (Socket × Peer)) (w : World) :
    Admission w (newcomers.foldl (admitOne env answers) w) newcomers := by
  induction newcomers generalizing w with
  | nil => exact Admission.refl w
  | cons newcomer rest ih =>
    obtain ⟨sock, peer⟩ := newcomer
    exact (admitOne_admission env answers w sock peer).trans (ih (admitOne env answers w (sock, peer)))

theorem Admission.waits {before after : PeerManager} {out all : List PeerEvent} {newcomers : List (Socket × Peer)}
    (admission : Admission ⟨before, out⟩ ⟨after, all⟩ newcomers) (waiting : List PendingInbound) :
    Admission ⟨{ before with inbound := waiting }, out⟩ ⟨{ after with inbound := waiting }, all⟩ newcomers :=
  ⟨congrArg (fun pm : PeerManager => { pm with inbound := waiting }) admission.frame, admission.out,
    admission.sockets, admission.placed⟩

theorem Admission.dials {before after : PeerManager} {out all : List PeerEvent} {newcomers : List (Socket × Peer)}
    (admission : Admission ⟨before, out⟩ ⟨after, all⟩ newcomers) (dialing : List PendingOutbound)
    (known : Finset Bytes) :
    Admission ⟨{ before with outbound := dialing, known := known }, out⟩
      ⟨{ after with outbound := dialing, known := known }, all⟩ newcomers :=
  ⟨congrArg (fun pm : PeerManager => { pm with outbound := dialing, known := known }) admission.frame, admission.out,
    admission.sockets, admission.placed⟩

end Admission

section Passes

variable (env : Env) (pfds : List PollFd) (pm : PeerManager)

def inboundTurns : List (Turn PendingInbound) :=
  pm.inbound.mapIdx (fun i p => inboundTurn env pm (reventsAt pfds (pm.inboundAt + i)) p)

def outboundTurns : List (Turn PendingOutbound) :=
  pm.outbound.mapIdx (fun i p => outboundTurn env pm (reventsAt pfds (pm.outboundAt + i)) p)

def arrivals : List (Socket × Peer) :=
  (inboundTurns env pfds pm).filterMap Turn.joining ++ (outboundTurns env pfds pm).filterMap Turn.joining

theorem inboundPass_turns :
    Admission ⟨{ pm with inbound := (inboundTurns env pfds pm).filterMap Turn.waiting }, []⟩
      ⟨(inboundPass env pfds pm []).1, (inboundPass env pfds pm []).2⟩
      ((inboundTurns env pfds pm).filterMap Turn.joining) := by
  obtain ⟨stay, joined⟩ := inboundLoop_turns env pfds pm pm.inbound pm.inboundAt pm [] (SameSetting.refl pm)
  have admission := admit_all env true ((inboundTurns env pfds pm).filterMap Turn.joining) ⟨pm, []⟩
  rw [inboundTurns, ← joined] at admission
  rw [inboundTurns, ← stay]
  exact admission.waits (inboundLoop env pfds pm.inbound pm.inboundAt pm []).1

/-- Step 1 of `handle_events` as a whole. -/
theorem admitted_turns : ∃ known,
    Admission ⟨{ pm with
        inbound := (inboundTurns env pfds pm).filterMap Turn.waiting
        outbound := (outboundTurns env pfds pm).filterMap Turn.waiting
        known := known }, []⟩
      (admitted env pfds pm) (arrivals env pfds pm) := by
  have early := inboundPass_turns env pfds pm
  generalize waited : inboundPass env pfds pm [] = result at early
  obtain ⟨next, events⟩ := result
  have frame := early.frame
  dsimp only at frame
  have same : SameSetting pm next := by
    rw [frame]
    exact ⟨rfl, rfl, rfl, rfl⟩
  have dialing : next.outbound = pm.outbound := by rw [frame]
  have place : next.outboundAt = pm.outboundAt := by rw [frame]
  obtain ⟨stay, known, joined⟩ := outboundLoop_turns env pfds pm pm.outbound pm.outboundAt next events same
  have late := admit_all env false ((outboundTurns env pfds pm).filterMap Turn.joining)
    ⟨{ next with known := known }, events⟩
  rw [outboundTurns, ← joined] at late
  have settled : admitted env pfds pm =
      ⟨{ (outboundLoop env pfds pm.outbound pm.outboundAt next events).2.1 with
          outbound := (outboundLoop env pfds pm.outbound pm.outboundAt next events).1
          known := known },
        (outboundLoop env pfds pm.outbound pm.outboundAt next events).2.2⟩ := by
    have kept : (outboundLoop env pfds pm.outbound pm.outboundAt next events).2.1.known = known := by
      have inner := late.frame
      dsimp only at inner
      rw [inner]
    rw [← kept]
    simp only [admitted, waited, outboundPass, dialing, place]
  refine ⟨known, ?_⟩
  rw [settled, arrivals, outboundTurns, ← stay]
  exact (early.dials _ known).trans (late.dials _ known)

end Passes

section Stages

variable (env : Env) (pfds : List PollFd) (pm : PeerManager)

/-- The manager and the events after steps 1 to 4 of `handle_events`. -/
def swept : World :=
  let (next, events, toDrop) := servePass env pfds pm
  let (rest, all) := next.dropAll events (toDrop ++ idlePeers next env.order (env.clock .sweep))
  ⟨rest.keepAlives (env.clock .sweep), all⟩

def expired : PeerManager :=
  expireOutbound (expireInbound pm kHandshakeTimeout (env.clock .expireInbound)) (env.clock .expireOutbound)

def accepted : PeerManager :=
  if pm.listenSock ≠ none ∧ reventsAt pfds 0 &&& pollIn ≠ 0 then acceptNew env pm else pm

theorem handleEvents_stages : handleEvents env pfds pm =
    (dialMore env (accepted env pfds (expired env (swept env pfds pm).pm)), (swept env pfds pm).out) := rfl

theorem swept_serves : Serves (admitted env pfds pm) (swept env pfds pm) := by
  have served := (reads_serveLoop env pfds (admitted env pfds pm).pm.ids (admitted env pfds pm).pm.connsAt
    (admitted env pfds pm).pm (admitted env pfds pm).out).serves
  unfold swept
  rw [servePass_admitted]
  generalize serveLoop env pfds _ _ _ _ = result at served ⊢
  obtain ⟨next, events, toDrop⟩ := result
  have dropped := serves_dropAll next events (toDrop ++ idlePeers next env.order (env.clock .sweep))
  have pinged : Serves ⟨(next.dropAll events (toDrop ++ idlePeers next env.order (env.clock .sweep))).1,
      (next.dropAll events (toDrop ++ idlePeers next env.order (env.clock .sweep))).2⟩ _ :=
    Reaches.one (.keepAlives (env.clock .sweep)) trivial rfl
  exact (served.trans dropped).trans pinged

theorem act_candidates {w next : World} {a : Act} (serving : a.Serving) (moves : act w a = some next) :
    next.pm.candidates = w.pm.candidates := by
  cases a with
  | promote | send | outside | ban | collect => cases serving
  | drain id result now =>
    cases moves
    rfl
  | receive id chunk now =>
    cases moves
    rfl
  | keepAlives now =>
    cases moves
    rfl
  | message id =>
    obtain ⟨handled, _, same⟩ := Option.map_eq_some_iff.mp moves
    cases same
    rfl
  | drop id =>
    rcases act_drop moves with ⟨-, same⟩ | ⟨c, -, same⟩ <;> rw [same]

theorem Serves.candidates {w next : World} (serves : Serves w next) : next.pm.candidates = w.pm.candidates := by
  have step : ∀ state after a, Act.Serving a → state.pm.candidates = w.pm.candidates → act state a = some after →
      after.pm.candidates = w.pm.candidates :=
    fun _ _ _ serving before moves => (act_candidates serving moves).trans before
  exact Reaches.preserves step serves rfl

theorem acceptOne_inbound (a : Accepted) :
    ∃ more, acceptOne env pm a = { pm with inbound := pm.inbound ++ more } := by
  unfold acceptOne
  split
  · exact ⟨[], by rw [List.append_nil]⟩
  · split
    · exact ⟨[], by rw [List.append_nil]⟩
    · exact ⟨[_], rfl⟩

theorem acceptAll_inbound (sockets : List Accepted) :
    ∃ more, sockets.foldl (acceptOne env) pm = { pm with inbound := pm.inbound ++ more } := by
  induction sockets generalizing pm with
  | nil => exact ⟨[], by rw [List.append_nil]; rfl⟩
  | cons a rest ih =>
    obtain ⟨one, first⟩ := acceptOne_inbound env pm a
    obtain ⟨more, same⟩ := ih (acceptOne env pm a)
    refine ⟨one ++ more, ?_⟩
    rw [List.foldl_cons, same, first]
    dsimp only
    rw [List.append_assoc]

theorem accepted_inbound : ∃ more, accepted env pfds pm = { pm with inbound := pm.inbound ++ more } := by
  unfold accepted
  split
  · unfold acceptNew
    split
    · exact ⟨[], by rw [List.append_nil]⟩
    · exact acceptAll_inbound env pm env.accepts
  · exact ⟨[], by rw [List.append_nil]⟩

end Stages

/-- What `dial_more` leaves: new dials behind the old ones, and the candidates it has not come to. -/
structure Dialed (before after : PeerManager) : Prop where
  frame : after = { before with outbound := after.outbound, known := after.known, candidates := after.candidates }
  outbound : before.outbound <+: after.outbound
  halfOpen : before.outbound.length ≤ kMaxHalfOpen → after.outbound.length ≤ kMaxHalfOpen
  done : after.candidates = [] ∨ kMaxHalfOpen ≤ after.outbound.length ∨
    after.maxPeers ≤ after.conns.size + after.inbound.length + after.outbound.length

theorem dialLoop_dialed (env : Env) (waiting : List Peer) (attempt : Nat) (pm : PeerManager) :
    Dialed pm (dialLoop env waiting attempt pm) ∧ (dialLoop env waiting attempt pm).candidates <:+ waiting := by
  induction waiting generalizing attempt pm with
  | nil => exact ⟨⟨rfl, List.prefix_refl _, id, Or.inl rfl⟩, List.suffix_refl _⟩
  | cons p rest ih =>
    rw [dialLoop]
    split
    · rename_i space
      dsimp only
      split
      · obtain ⟨dialed, left⟩ := ih (attempt + 1) { pm with known := pm.known.erase (key p) }
        refine ⟨⟨?_, dialed.outbound, dialed.halfOpen, dialed.done⟩, left.trans (List.suffix_cons p rest)⟩
        rw [dialed.frame]
      · rename_i o _
        obtain ⟨dialed, left⟩ := ih (attempt + 1) { pm with outbound := pm.outbound ++ [o] }
        refine ⟨⟨?_, (List.prefix_append _ _).trans dialed.outbound, fun _ => dialed.halfOpen ?_, dialed.done⟩,
          left.trans (List.suffix_cons p rest)⟩
        · rw [dialed.frame]
        · rw [List.length_append, List.length_singleton]
          exact space.1
    · rename_i full
      refine ⟨⟨rfl, List.prefix_refl _, id, Or.inr ?_⟩, List.suffix_refl _⟩
      by_cases many : pm.outbound.length < kMaxHalfOpen
      · exact Or.inr (Nat.not_lt.mp (fun few => full ⟨many, few⟩))
      · exact Or.inl (Nat.not_lt.mp many)

theorem dialMore_dialed (env : Env) (pm : PeerManager) :
    Dialed pm (dialMore env pm) ∧ (dialMore env pm).candidates <:+ pm.candidates :=
  dialLoop_dialed env pm.candidates 0 pm

theorem admitted_setting (env : Env) (pfds : List PollFd) (pm : PeerManager) :
    SameSetting pm (admitted env pfds pm).pm := by
  obtain ⟨known, admission⟩ := admitted_turns env pfds pm
  rw [admission.frame]
  exact ⟨rfl, rfl, rfl, rfl⟩

theorem handleEvents_setting (env : Env) (pfds : List PollFd) (pm : PeerManager) :
    SameSetting pm (handleEvents env pfds pm).1 := by
  rw [handleEvents_stages]
  have served := (admitted_setting env pfds pm).trans (swept_serves env pfds pm).setting
  obtain ⟨more, inbound⟩ := accepted_inbound env pfds (expired env (swept env pfds pm).pm)
  dsimp only
  rw [(dialMore_dialed env _).1.frame, inbound]
  exact served.trans ⟨rfl, rfl, rfl, rfl⟩

theorem addPeers_setting (env : Env) (pm : PeerManager) (peers : List Peer) :
    SameSetting pm (addPeers env pm peers) := by
  obtain ⟨known, candidates, queued⟩ := queuePeers_frame peers pm
  rw [addPeers, (dialMore_dialed env _).1.frame, queued]
  exact ⟨rfl, rfl, rfl, rfl⟩

/-- A property of every handshake in progress. -/
structure Pends (waiting : PendingInbound → Prop) (dialing : PendingOutbound → Prop) (pm : PeerManager) : Prop where
  inbound : ∀ p ∈ pm.inbound, waiting p
  outbound : ∀ p ∈ pm.outbound, dialing p

section Pending

variable {waiting : PendingInbound → Prop} {dialing : PendingOutbound → Prop} {pm : PeerManager}

theorem waiting_mem {α : Type} {entries : List α} {turn : Nat → α → Turn α} {q : α}
    (member : q ∈ (entries.mapIdx turn).filterMap Turn.waiting) :
    ∃ i p, entries[i]? = some p ∧ turn i p = .waits q := by
  obtain ⟨result, listed, same⟩ := List.mem_filterMap.mp member
  obtain ⟨i, inside, turned⟩ := List.mem_mapIdx.mp listed
  refine ⟨i, entries[i], List.getElem?_eq_getElem inside, ?_⟩
  rw [turned]
  cases result with
  | waits entry => exact congrArg Turn.waits (Option.some.inj same)
  | joins sock peer => cases same
  | closes => cases same

theorem admitted_pends (env : Env) (pfds : List PollFd)
    (waits : ∀ i p q, pm.inbound[i]? = some p →
      inboundTurn env pm (reventsAt pfds (pm.inboundAt + i)) p = .waits q → waiting q)
    (dials : ∀ i p q, pm.outbound[i]? = some p →
      outboundTurn env pm (reventsAt pfds (pm.outboundAt + i)) p = .waits q → dialing q) :
    Pends waiting dialing (admitted env pfds pm).pm := by
  obtain ⟨known, admission⟩ := admitted_turns env pfds pm
  rw [admission.frame]
  constructor
  · intro q member
    obtain ⟨i, p, located, turned⟩ := waiting_mem member
    exact waits i p q located turned
  · intro q member
    obtain ⟨i, p, located, turned⟩ := waiting_mem member
    exact dials i p q located turned

theorem joining_mem {α : Type} {entries : List α} {turn : Nat → α → Turn α} {newcomer : Socket × Peer}
    (member : newcomer ∈ (entries.mapIdx turn).filterMap Turn.joining) :
    ∃ i p, entries[i]? = some p ∧ turn i p = .joins newcomer.1 newcomer.2 := by
  obtain ⟨result, listed, same⟩ := List.mem_filterMap.mp member
  obtain ⟨i, inside, turned⟩ := List.mem_mapIdx.mp listed
  refine ⟨i, entries[i], List.getElem?_eq_getElem inside, ?_⟩
  rw [turned]
  cases result with
  | waits entry => cases same
  | joins sock peer =>
    cases same
    rfl
  | closes => cases same

theorem admit_each {good : PeerManager → Prop} (env : Env) (answers : Bool) (newcomers : List (Socket × Peer))
    (w : World) (holds : good w.pm)
    (joins : ∀ newcomer ∈ newcomers, ∀ w : World, good w.pm → good (admitOne env answers w newcomer).pm) :
    good (newcomers.foldl (admitOne env answers) w).pm := by
  induction newcomers generalizing w with
  | nil => exact holds
  | cons newcomer rest ih =>
    apply ih
    · exact joins newcomer (List.mem_cons_self ..) w holds
    · intro other member
      exact joins other (List.mem_cons_of_mem _ member)

theorem admitted_invariant {good : PeerManager → Prop} (env : Env) (pfds : List PollFd) (holds : good pm)
    (lists : ∀ pm inbound outbound known, good pm →
      good { pm with inbound := inbound, outbound := outbound, known := known })
    (waits : ∀ i p sock peer, pm.inbound[i]? = some p →
      inboundTurn env pm (reventsAt pfds (pm.inboundAt + i)) p = .joins sock peer →
      ∀ w : World, good w.pm → good (admitOne env true w (sock, peer)).pm)
    (dials : ∀ i p sock peer, pm.outbound[i]? = some p →
      outboundTurn env pm (reventsAt pfds (pm.outboundAt + i)) p = .joins sock peer →
      ∀ w : World, good w.pm → good (admitOne env false w (sock, peer)).pm) :
    good (admitted env pfds pm).pm := by
  have frame := (inboundPass_turns env pfds pm).frame
  have first : good (inboundPass env pfds pm []).1 := by
    obtain ⟨-, joined⟩ := inboundLoop_turns env pfds pm pm.inbound pm.inboundAt pm [] (SameSetting.refl pm)
    have each := @admit_each good env true ((inboundTurns env pfds pm).filterMap Turn.joining) ⟨pm, []⟩ holds (by
      intro newcomer member
      obtain ⟨i, p, located, turned⟩ := joining_mem member
      exact waits i p newcomer.1 newcomer.2 located turned)
    rw [inboundTurns, ← joined] at each
    exact lists _ _ _ _ each
  generalize waited : inboundPass env pfds pm [] = result at first frame
  obtain ⟨next, events⟩ := result
  dsimp only at first frame
  have same : SameSetting pm next := by
    rw [frame]
    exact ⟨rfl, rfl, rfl, rfl⟩
  have dialing : next.outbound = pm.outbound := by rw [frame]
  have place : next.outboundAt = pm.outboundAt := by rw [frame]
  obtain ⟨-, known, joined⟩ := outboundLoop_turns env pfds pm pm.outbound pm.outboundAt next events same
  have each := @admit_each good env false ((outboundTurns env pfds pm).filterMap Turn.joining)
    ⟨{ next with known := known }, events⟩ (lists _ _ _ _ first) (by
      intro newcomer member
      obtain ⟨i, p, located, turned⟩ := joining_mem member
      exact dials i p newcomer.1 newcomer.2 located turned)
  rw [outboundTurns, ← joined] at each
  simp only [admitted, waited, outboundPass, dialing, place]
  exact lists _ _ _ _ each

theorem Pends.serves (pends : Pends waiting dialing pm) {w next : World} (same : w.pm = pm) (serves : Serves w next) :
    Pends waiting dialing next.pm := by
  have frame := serves.frame
  rw [same] at frame
  constructor
  · rw [frame.inbound]
    exact pends.inbound
  · rw [frame.outbound]
    exact pends.outbound

theorem Pends.expired (pends : Pends waiting dialing pm) (env : Env) :
    Pends waiting dialing (PeerManager.expired env pm) := by
  constructor
  · intro p member
    exact pends.inbound p (List.mem_of_mem_filter member)
  · intro p member
    exact pends.outbound p (List.mem_of_mem_filter member)

theorem Pends.acceptAll (env : Env) (sockets : List Accepted) (pends : Pends waiting dialing pm)
    (fresh : ∀ p : PendingInbound, p.buffer = [] → (∃ fd, p.sock = { fd := fd }) → waiting p) :
    Pends waiting dialing (sockets.foldl (acceptOne env) pm) := by
  induction sockets generalizing pm with
  | nil => exact pends
  | cons a rest ih =>
    apply ih
    unfold acceptOne
    split
    · exact pends
    · split
      · exact pends
      · refine ⟨?_, pends.outbound⟩
        intro p member
        rcases List.mem_append.mp member with old | new
        · exact pends.inbound p old
        · rw [List.mem_singleton.mp new]
          exact fresh _ rfl ⟨a.fd, rfl⟩

theorem Pends.accepted (env : Env) (pfds : List PollFd) (pends : Pends waiting dialing pm)
    (fresh : ∀ p : PendingInbound, p.buffer = [] → (∃ fd, p.sock = { fd := fd }) → waiting p) :
    Pends waiting dialing (PeerManager.accepted env pfds pm) := by
  unfold PeerManager.accepted
  split
  · unfold acceptNew
    split
    · exact pends
    · exact pends.acceptAll env env.accepts fresh
  · exact pends

theorem startDial_fresh {env : Env} {peer : Peer} {attempt : Nat} {o : PendingOutbound}
    (started : startDial env peer attempt = some o) :
    o.phase = .connecting ∧ o.buffer = [] ∧ ∃ fd, o.sock = { fd := fd } := by
  unfold startDial at started
  split at started
  · cases started
  · split at started <;> cases started
    exact ⟨rfl, rfl, _, rfl⟩

theorem Pends.dialLoop (env : Env) (peers : List Peer) (attempt : Nat) (pends : Pends waiting dialing pm)
    (fresh : ∀ o : PendingOutbound, o.phase = .connecting → o.buffer = [] →
      (∃ fd, o.sock = { fd := fd }) → dialing o) :
    Pends waiting dialing (PeerManager.dialLoop env peers attempt pm) := by
  induction peers generalizing attempt pm with
  | nil => exact ⟨pends.inbound, pends.outbound⟩
  | cons p rest ih =>
    rw [PeerManager.dialLoop]
    split
    · dsimp only
      split
      · exact ih (attempt + 1) ⟨pends.inbound, pends.outbound⟩
      · rename_i o dialled
        apply ih
        refine ⟨pends.inbound, ?_⟩
        intro q member
        rcases List.mem_append.mp member with old | new
        · exact pends.outbound q old
        · split at dialled
          · cases dialled
          · obtain ⟨phase, buffer, sock⟩ := startDial_fresh dialled
            rw [List.mem_singleton.mp new]
            exact fresh o phase buffer sock
    · exact ⟨pends.inbound, pends.outbound⟩

theorem Pends.queuePeers (peers : List Peer) (pends : Pends waiting dialing pm) :
    Pends waiting dialing (PeerManager.queuePeers peers pm) := by
  obtain ⟨known, candidates, queued⟩ := queuePeers_frame peers pm
  rw [queued]
  exact ⟨pends.inbound, pends.outbound⟩

/-- A whole `handle_events`: a handshake that is still in progress has waited for its turn, or is new. -/
theorem handleEvents_pends (env : Env) (pfds : List PollFd)
    (waits : ∀ i p q, pm.inbound[i]? = some p →
      inboundTurn env pm (reventsAt pfds (pm.inboundAt + i)) p = .waits q → waiting q)
    (dials : ∀ i p q, pm.outbound[i]? = some p →
      outboundTurn env pm (reventsAt pfds (pm.outboundAt + i)) p = .waits q → dialing q)
    (accepts : ∀ p : PendingInbound, p.buffer = [] → (∃ fd, p.sock = { fd := fd }) → waiting p)
    (starts : ∀ o : PendingOutbound, o.phase = .connecting → o.buffer = [] →
      (∃ fd, o.sock = { fd := fd }) → dialing o) :
    Pends waiting dialing (handleEvents env pfds pm).1 := by
  rw [handleEvents_stages]
  have admitted := admitted_pends env pfds waits dials
  have served := admitted.serves rfl (swept_serves env pfds pm)
  have kept := (served.expired env).accepted env pfds accepts
  exact kept.dialLoop env _ 0 starts

end Pending

end TorrentPeer.PeerManager
