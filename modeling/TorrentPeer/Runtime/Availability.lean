import TorrentPeer.Runtime.PeerCalls

/-! `piece_frequency_` against the bitfields it counts. -/

namespace TorrentPeer.PeerManager

open Wire Transition

def holders (pm : PeerManager) (i : Nat) : Nat :=
  pm.conns.total (fun c => (c.hasPieces.get i).toNat)

def BitfieldFirst (w : World) : Act → Prop
  | .message id => ∀ c payload rest field, w.pm.conns.find? id = some c →
      extractMessage c.readBuffer = .ok (some (msgBitfield :: payload, rest)) →
      c.gotBitfield = false → Bitfield.fromBytes payload c.hasPieces.bits = .ok field →
      ∀ i, c.hasPieces.get i = false
  | _ => True

structure Counted (count limit : Nat) (pm : PeerManager) : Prop where
  length : pm.pieceFrequency.length = count
  exact : ∀ i n, pm.pieceFrequency[i]? = some n → n = holders pm i
  maxPeers : pm.maxPeers = limit
  size : pm.conns.size ≤ limit

theorem applyAvailability_get (frequency : List Nat) (field : Bitfield) (delta : Int) (i : Nat) :
    (applyAvailability frequency field delta)[i]? = (frequency[i]?).map (fun (n : Nat) =>
      if field.get i = true then (((n : Int) + delta) % 65536).toNat else n) := by
  rw [applyAvailability, List.getElem?_mapIdx]

theorem holders_size (pm : PeerManager) (i : Nat) : holders pm i ≤ pm.conns.size := by
  have bound := pm.conns.total_bounded (fun c => (c.hasPieces.get i).toNat) 1
    (fun c => Bool.toNat_le _)
  rw [Nat.mul_one] at bound
  exact bound

section Steps

variable {count limit : Nat} {pm : PeerManager} (counted : Counted count limit pm)

include counted

theorem Counted.keep (conns : Table Nat PeerConnection) (size : conns.size ≤ limit)
    (same : ∀ i, conns.total (fun c => (c.hasPieces.get i).toNat) = holders pm i)
    (promoted : Nat) :
    Counted count limit { pm with conns := conns, promoted := promoted } := by
  refine ⟨counted.length, ?_, counted.maxPeers, size⟩
  intro i n located
  rw [counted.exact i n located]
  exact (same i).symm

theorem Counted.update (change : Nat → PeerConnection → PeerConnection)
    (same : ∀ id c, (change id c).hasPieces = c.hasPieces) :
    Counted count limit { pm with conns := pm.conns.update change } := by
  apply counted.keep (pm.conns.update change)
  · rw [Table.size_update]
    exact counted.size
  · intro i
    apply Table.total_update
    intro id c _
    rw [same]

theorem Counted.modify (id : Nat) (change : PeerConnection → PeerConnection)
    (same : ∀ c, (change c).hasPieces = c.hasPieces) :
    Counted count limit { pm with conns := pm.conns.modify id change } := by
  apply counted.update
  intro other c
  split
  · exact same c
  · rfl

theorem Counted.recount (few : limit < 65536) (id : Nat) (c after : PeerConnection)
    (found : pm.conns.find? id = some c) (frequency : List Nat)
    (length : frequency.length = count)
    (adds : ∀ i, (c.hasPieces.get i).toNat ≤ (after.hasPieces.get i).toNat)
    (moved : ∀ i n, pm.pieceFrequency[i]? = some n →
      frequency[i]? = some ((n + ((after.hasPieces.get i).toNat - (c.hasPieces.get i).toNat)) % 65536)) :
    Counted count limit
      { pm with conns := pm.conns.modify id (fun _ => after), pieceFrequency := frequency } := by
  have size : (pm.conns.modify id (fun _ => after)).size ≤ limit := by
    rw [Table.size_modify]
    exact counted.size
  refine ⟨length, ?_, counted.maxPeers, size⟩
  intro i n located
  have bound := (List.getElem?_eq_some_iff.mp located).1
  rw [length, ← counted.length] at bound
  have before := counted.exact i _ (List.getElem?_eq_getElem bound)
  have stored := moved i _ (List.getElem?_eq_getElem bound)
  rw [located, Option.some.injEq] at stored
  have balance := Table.total_modify pm.conns id c (fun _ => after)
    (fun c => (c.hasPieces.get i).toNat) found
  have most := holders_size
    { pm with conns := pm.conns.modify id (fun _ => after), pieceFrequency := frequency } i
  have grows := adds i
  simp only [holders] at before most ⊢
  omega

theorem Counted.promote (sock : Socket) (peer : Peer) (now : Time) (answers : Bool) (w next : World)
    (here : w.pm = pm) (moves : act w (.promote sock peer now answers) = some next) :
    Counted count limit next.pm := by
  subst here
  cases found : w.pm.conns.find? (w.pm.promoted % 2 ^ 32) with
  | none =>
    obtain ⟨room, same⟩ := act_promote found moves
    subst same
    apply counted.keep
    · have grown := Table.size_emplace w.pm.conns (w.pm.promoted % 2 ^ 32)
        (newcomer w.pm sock peer now answers)
      have most := counted.maxPeers
      omega
    · intro i
      rw [Table.total_emplace _ _ _ _ found]
      have empty : (newcomer w.pm sock peer now answers).hasPieces =
          Bitfield.ofBits w.pm.pieceCount := by
        cases answers <;> rfl
      rw [empty, Bitfield.get_ofBits]
      rfl
  | some old =>
    -- the identifier is taken: `emplace` keeps the old connection
    simp only [act, PeerManager.promote, Table.emplace_present _ _ _ old found] at moves
    split at moves
    · cases moves
      split
      · exact (counted.keep w.pm.conns counted.size (fun _ => rfl) (w.pm.promoted + 1)).modify _ _
          (fun _ => rfl)
      · exact counted.keep w.pm.conns counted.size (fun _ => rfl) (w.pm.promoted + 1)
    · cases moves

theorem Counted.drop (few : limit < 65536) (id : Nat) (c : PeerConnection) (known : Finset Bytes)
    (found : pm.conns.find? id = some c) :
    Counted count limit { pm with
      pieceFrequency := applyAvailability pm.pieceFrequency c.hasPieces (-1)
      known := known
      conns := pm.conns.erase id } := by
  refine ⟨?_, ?_, counted.maxPeers, Nat.le_trans (Table.size_erase _ _) counted.size⟩
  · rw [applyAvailability, List.length_mapIdx]
    exact counted.length
  · intro i n located
    rw [applyAvailability_get] at located
    obtain ⟨before, stored, changed⟩ := Option.map_eq_some_iff.mp located
    have exact := counted.exact i before stored
    have most := holders_size pm i
    have size := counted.size
    have balance := Table.total_erase pm.conns id c (fun c => (c.hasPieces.get i).toNat) found
    simp only [holders] at exact most ⊢
    rw [← changed]
    cases held : c.hasPieces.get i with
    | false =>
      rw [held, Bool.toNat_false] at balance
      rw [if_neg (by simp)]
      omega
    | true =>
      rw [held, Bool.toNat_true] at balance
      rw [if_pos rfl]
      omega

theorem Counted.handled (few : limit < 65536) (id : Nat) (c old : PeerConnection) (msg : Bytes)
    (out : List PeerEvent) (handled : Handled) (found : pm.conns.find? id = some old)
    (same : c.hasPieces = old.hasPieces)
    (effect : PeerConnection.Effect c id pm.pieceFrequency out msg handled)
    (first : ∀ payload field, msg = msgBitfield :: payload → c.gotBitfield = false →
      Bitfield.fromBytes payload c.hasPieces.bits = .ok field → ∀ i, c.hasPieces.get i = false) :
    Counted count limit { pm with
      conns := pm.conns.modify id (fun _ => handled.conn)
      pieceFrequency := handled.frequency } := by
  -- every effect but two keeps the bitfield and the counts
  have kept : ∀ after : PeerConnection, after.hasPieces = c.hasPieces →
      Counted count limit { pm with conns := pm.conns.modify id (fun _ => after) } := by
    intro after unchanged
    rw [Table.modify_congr pm.conns id (fun _ => after) (fun other =>
      if other = old then after else other) (by
        intro value present
        rw [found] at present
        cases present
        rw [if_pos rfl])]
    apply counted.modify
    intro other
    split
    · rename_i equal
      rw [unchanged, same, equal]
    · rfl
  cases effect with
  | flags choking interested got thrown => exact kept _ rfl
  | unchoked => exact kept _ rfl
  | choked => exact kept _ rfl
  | asked req unchoked small index offset => exact kept _ rfl
  | delivered k block size answered => exact kept _ rfl
  | withdrawn req => exact kept _ rfl
  | cancelled index offset length =>
    apply kept
    obtain ⟨_, _, shape⟩ := PeerConnection.removeQueuedPiece_shape _ index offset length
    rw [shape]
  | had index field fresh stored =>
    rw [same] at fresh stored
    apply counted.recount few id old _ found
    · rw [List.length_modify]
      exact counted.length
    · intro i
      rw [Bitfield.set_get _ _ _ i stored]
      cases old.hasPieces.get i <;> simp
    · intro i n located
      rw [List.getElem?_modify, located]
      dsimp only
      rw [Bitfield.set_get _ _ _ i stored]
      by_cases here : i = index
      · subst here
        simp [fresh]
      · have exact := counted.exact i n located
        have most := holders_size pm i
        have size := counted.size
        have small : n % 65536 = n := Nat.mod_eq_of_lt (by omega)
        simp [here, Ne.symm here, small]
  | announced payload field shape unset parsed =>
    have empty := first payload field shape unset parsed
    rw [same] at empty
    apply counted.recount few id old _ found
    · rw [applyAvailability, List.length_mapIdx]
      exact counted.length
    · intro i
      rw [empty i]
      exact Nat.zero_le _
    · intro i n located
      have exact := counted.exact i n located
      have most := holders_size pm i
      have size := counted.size
      rw [applyAvailability_get, located, Option.map_some, empty i]
      dsimp only
      cases field.get i with
      | false =>
        simp only [Bool.false_eq_true, if_false, Bool.toNat_false, Nat.sub_self, Nat.add_zero,
          Option.some.injEq]
        omega
      | true =>
        simp only [if_true, Bool.toNat_true, Bool.toNat_false, Nat.sub_zero, Option.some.injEq]
        omega

end Steps

theorem drain_hasPieces (c : PeerConnection) (result : Send) (now : Time) :
    (c.drain result now).1.hasPieces = c.hasPieces := by
  obtain ⟨_, _, _, _, _, same⟩ := c.drain_shape result now
  rw [same]

theorem sendNoted_hasPieces (c : PeerConnection) (now : Time) (message : Message) :
    (sendNoted c now message).hasPieces = c.hasPieces := by
  cases message <;> rfl

theorem act_counted {count limit : Nat} (few : limit < 65536) (w next : World) (a : Act)
    (allowed : BitfieldFirst w a) (counted : Counted count limit w.pm) (moves : act w a = some next) :
    Counted count limit next.pm := by
  cases a with
  | promote sock peer now answers => exact counted.promote sock peer now answers w next rfl moves
  | send id message now =>
    cases moves
    exact counted.modify id _ (fun c => sendNoted_hasPieces c now message)
  | drain id result now =>
    cases moves
    exact counted.modify id _ (fun c => drain_hasPieces c result now)
  | receive id chunk now =>
    cases moves
    exact counted.modify id _ (fun _ => rfl)
  | message id =>
    obtain ⟨c, msg, rest, handled, found, extracted, effect, same⟩ := act_message moves
    subst same
    refine counted.handled few id { c with readBuffer := rest, handled := c.handled ++ [msg] } c msg w.out handled
      found rfl effect ?_
    intro payload field shape unset parsed
    rw [shape] at extracted
    exact allowed c payload rest field found extracted unset parsed
  | drop id =>
    rcases act_drop moves with ⟨-, same⟩ | ⟨c, found, same⟩
    · rw [same]
      exact counted
    · rw [same]
      exact counted.drop few id c _ found
  | keepAlives now =>
    cases moves
    apply counted.update
    intro id c
    split <;> rfl
  | outside other =>
    cases moves
    exact ⟨counted.length, counted.exact, counted.maxPeers, counted.size⟩
  | ban host =>
    cases moves
    exact ⟨counted.length, counted.exact, counted.maxPeers, counted.size⟩
  | collect =>
    cases moves
    exact counted

def Started (torrent : TorrentFile) (peerId : Bytes) (listenSock : Option Nat) (maxPeers : Nat)
    (w : World) : Prop :=
  create torrent peerId listenSock maxPeers = .ok w.pm ∧ w.out = []

theorem create_counted {torrent : TorrentFile} {peerId : Bytes} {listenSock : Option Nat}
    {maxPeers : Nat} {w : World} (started : Started torrent peerId listenSock maxPeers w) :
    Counted torrent.pieces.length maxPeers w.pm := by
  obtain ⟨created, -⟩ := started
  unfold create at created
  split at created
  · cases created
  · rw [← Except.ok.inj created]
    refine ⟨List.length_replicate, ?_, rfl, Nat.zero_le _⟩
    intro i n located
    have member := List.mem_of_getElem? located
    rw [List.eq_of_mem_replicate member]
    rfl

/-- It is not the first well-formed Bitfield of a peer that some pieces are known of already. -/
def Call.Unannounced (x : Call) : Prop :=
  ∀ payload field, x.msg = msgBitfield :: payload → x.conn.gotBitfield = false →
    Bitfield.fromBytes payload x.conn.hasPieces.bits = .ok field → ∀ i, x.conn.hasPieces.get i = false

def BitfieldsFirst (pm : PeerManager) : Op → Prop
  | .handleEvents env pfds => ∀ x ∈ roundCalls env pfds pm, x.Unannounced
  | _ => True

section Rounds

variable {count limit : Nat} (few : limit < 65536)

include few

theorem joins_counted {w next : World} {env : Env} {pm : PeerManager}
    (moves : Reaches act (Act.Joins env pm) w next) (counted : Counted count limit w.pm) :
    Counted count limit next.pm := by
  have step : ∀ state after a, Act.Joins env pm a → Counted count limit state.pm → act state a = some after →
      Counted count limit after.pm := by
    intro state after a joins before moved
    refine act_counted few state after a ?_ before moved
    cases a with
    | message id => exact absurd trivial joins.2.1
    | _ => exact trivial
  exact Reaches.preserves step moves counted

theorem hears_counted {w last : World} {calls : List Call} (hears : Hears w calls last)
    (first : ∀ x ∈ calls, x.Unannounced) (counted : Counted count limit w.pm) : Counted count limit last.pm := by
  induction hears with
  | done w => exact counted
  | moved w next last a calls reading silent moves more ih =>
    refine ih first (act_counted few w next a ?_ counted moves)
    cases a with
    | message id => exact absurd rfl (silent id)
    | _ => exact trivial
  | heard w last id x calls next more ih =>
    refine ih (fun y later => first y (List.mem_cons_of_mem _ later))
      (act_counted few w _ (.message id) ?_ counted (act_call next))
    intro c payload rest field found extracted unset parsed
    obtain ⟨d, msg, tail, present, taken, rfl⟩ := nextCall_some next
    rw [found] at present
    cases present
    rw [extracted] at taken
    cases taken
    exact first _ List.mem_cons_self payload field rfl unset parsed

theorem dropAll_counted (ids : List Nat) (pm : PeerManager) (out : List PeerEvent)
    (counted : Counted count limit pm) : Counted count limit (pm.dropAll out ids).1 := by
  induction ids generalizing pm out with
  | nil => exact counted
  | cons id ids ih => exact ih _ _ (act_counted few ⟨pm, out⟩ _ (.drop id) trivial counted rfl)

theorem Counted.apart {before after : PeerManager} (counted : Counted count limit before)
    (apart : Apart before after) : Counted count limit after := by
  rw [apart.same]
  exact act_counted few ⟨before, []⟩ _ (.outside after) trivial counted rfl

theorem handleEvents_counted (env : Env) (pfds : List PollFd) (pm : PeerManager) (room : Room pm)
    (first : ∀ x ∈ roundCalls env pfds pm, x.Unannounced) (counted : Counted count limit pm) :
    Counted count limit (handleEvents env pfds pm).1 := by
  have joined := joins_counted few (admitted_joins env pfds pm room).1 counted
  have served := hears_counted few (hears_servePass env pfds pm) first joined
  obtain ⟨ids, -, last⟩ := handleEvents_phases env pfds pm
  have swept := dropAll_counted few ids _ (servePass env pfds pm).2.1 served
  have pinged := act_counted few ⟨_, []⟩ _ (.keepAlives (env.clock .sweep)) trivial swept rfl
  exact pinged.apart few last

theorem perform_counted (pm : PeerManager) (op : Op) (room : Room pm) (first : BitfieldsFirst pm op)
    (counted : Counted count limit pm) : Counted count limit (pm.perform op).1 := by
  cases op with
  | buildFds order => exact counted.apart few (buildFds_apart pm order)
  | handleEvents env pfds => exact handleEvents_counted few env pfds pm room first counted
  | addPeers env peers => exact counted.apart few (addPeers_apart env pm peers)
  | send id message now => exact counted.modify id _ (fun c => sendNoted_hasPieces c now message)
  | broadcastHave index => exact counted.update _ (fun _ _ => rfl)
  | ban host order =>
    have listed : Counted count limit { pm with banned := insert host pm.banned } :=
      act_counted few ⟨pm, []⟩ _ (.ban host) trivial counted rfl
    show Counted count limit (pm.ban host order).1
    unfold PeerManager.ban
    split
    · exact counted
    · exact dropAll_counted few _ _ _ listed
  | expire id pending snubbed => exact counted.modify id _ (fun _ => rfl)

end Rounds

/-- What `piece_frequency_` and the connections say about each other. -/
structure Exact (torrent : TorrentFile) (maxPeers : Nat) (pm : PeerManager) : Prop where
  counts : ∀ i < torrent.pieces.length, pm.pieceFrequency[i]? = some (holders pm i)
  fits : ∀ i, holders pm i ≤ maxPeers
  none_left : pm.conns.size = 0 → ∀ n ∈ pm.pieceFrequency, n = 0

theorem Counted.holders_counted {torrent : TorrentFile} {maxPeers : Nat} {pm : PeerManager}
    (counted : Counted torrent.pieces.length maxPeers pm) : Exact torrent maxPeers pm := by
  refine ⟨?_, ?_, ?_⟩
  · intro i inside
    rw [← counted.length] at inside
    rw [List.getElem?_eq_getElem inside, ← counted.exact i _ (List.getElem?_eq_getElem inside)]
  · intro i
    exact Nat.le_trans (holders_size pm i) counted.size
  · intro empty n member
    obtain ⟨i, located⟩ := List.mem_iff_getElem?.mp member
    have bound := holders_size pm i
    have exact := counted.exact i n located
    omega

/-- As long as Bitfields come first, every count is the number of peers with the piece: after every
act, and after every public call. -/
theorem availability_exact (torrent : TorrentFile) (peerId : Bytes) (listenSock : Option Nat)
    (maxPeers : Nat) (few : maxPeers < 2 ^ 16) :
    (∀ w, ReachableWithin act (Started torrent peerId listenSock maxPeers) BitfieldFirst w →
      Exact torrent maxPeers w.pm) ∧
    ∀ pm, ReachableWithin (fun pm op => some (pm.perform op).1)
      (fun pm => create torrent peerId listenSock maxPeers = .ok pm) BitfieldsFirst pm →
      Exact torrent maxPeers pm := by
  constructor
  · intro w reached
    apply Counted.holders_counted
    induction reached with
    | start state begins => exact create_counted begins
    | next state after a _ permitted moves ih => exact act_counted few state after a permitted ih moves
  · intro pm reached
    have kept : Room pm ∧ Counted torrent.pieces.length maxPeers pm := by
      induction reached with
      | start pm created =>
        exact ⟨used_room (.start pm ⟨_, _, _, _, created⟩), create_counted (w := ⟨pm, []⟩) ⟨created, rfl⟩⟩
      | next pm after op _ permitted moves ih =>
        cases moves
        exact ⟨perform_room pm op ih.1, perform_counted few pm op ih.1 permitted ih.2⟩
    exact kept.2.holders_counted

def twoPieces : TorrentFile where
  name := ascii "a"
  pieceLength := 16384
  pieces := [List.replicate 20 0, List.replicate 20 1]
  length := some 32768
  totalLength := 32768

def announcedFirst (pm : PeerManager) : Op → Bool
  | .handleEvents env pfds => (roundCalls env pfds pm).all (fun x =>
      decide (x.msg.head? ≠ some msgBitfield) ||
        (List.range x.conn.hasPieces.bits).all (fun i => !x.conn.hasPieces.get i))
  | _ => true

theorem announcedFirst_first (pm : PeerManager) (op : Op) (passes : announcedFirst pm op = true) :
    BitfieldsFirst pm op := by
  cases op with
  | handleEvents env pfds =>
    intro x member payload field shape unset parsed i
    have checked := List.all_eq_true.mp passes x member
    simp only [shape, List.head?_cons, ne_eq, not_true_eq_false, decide_false, Bool.false_or, List.all_eq_true,
      List.mem_range, Bool.not_eq_eq_eq_not, Bool.not_true] at checked
    by_cases inside : i < x.conn.hasPieces.bits
    · exact checked i inside
    · exact Bitfield.get_outside _ i (by omega)
  | _ => exact trivial

/-- A peer connects, sends its handshake and then the Bitfield 1000. -/
def joining : List Op :=
  let hears (chunk : Bytes) : Env := { Session.quietEnv with recv := fun _ => .data chunk }
  [.handleEvents { Session.quietEnv with accepts := [⟨5, ascii "g", 1⟩] } [⟨3, pollIn, pollIn⟩],
    .buildFds [],
    .handleEvents (hears (buildHandshake Session.fourPieces (List.replicate 20 8)))
      [⟨3, pollIn, 0⟩, ⟨5, pollIn, pollIn⟩],
    .buildFds [],
    .handleEvents (hears (Message.bytes (.bitfield [128]))) [⟨3, pollIn, 0⟩, ⟨5, pollIn, pollIn⟩]]

theorem availability_exact_one_bitfield :
    ∃ pm, ReachableWithin (fun pm op => some (pm.perform op).1)
        (fun pm => create Session.fourPieces (List.replicate 20 7) (some 3) 60 = .ok pm) BitfieldsFirst pm ∧
      pm.pieceFrequency = [1, 0, 0, 0] ∧ holders pm 0 = 1 ∧ holders pm 1 = 0 := by
  have seen : (create Session.fourPieces (List.replicate 20 7) (some 3) 60).toOption.bind (fun start =>
      (run (guarded (fun pm op => some (pm.perform op).1) announcedFirst) start joining).map (fun pm =>
        pm.pieceFrequency)) = some [1, 0, 0, 0] := by
    decide +kernel
  obtain ⟨start, created, seen⟩ := Option.bind_eq_some_iff.mp seen
  obtain ⟨pm, ran, counts⟩ := Option.map_eq_some_iff.mp seen
  have begins : ReachableWithin (fun pm op => some (pm.perform op).1)
      (fun pm => create Session.fourPieces (List.replicate 20 7) (some 3) 60 = .ok pm) BitfieldsFirst start :=
    .start _ (Torrent.toOption_ok created)
  have reached := begins.guarded announcedFirst_first ran
  obtain ⟨-, called⟩ := availability_exact Session.fourPieces (List.replicate 20 7) (some 3) 60 (by decide)
  have exact := (called pm reached).counts
  rw [counts] at exact
  refine ⟨pm, reached, counts, ?_, ?_⟩
  · exact (Option.some.inj (exact 0 (by decide))).symm
  · exact (Option.some.inj (exact 1 (by decide))).symm

/-- A Have and then a Bitfield with the same piece: counted twice, and one count stays after
the peer is gone. -/
theorem availability_counts_twice :
    ∃ present gone, Reachable act (Started twoPieces (List.replicate 20 7) none 60) present ∧
      Reachable act (Started twoPieces (List.replicate 20 7) none 60) gone ∧
      present.pm.pieceFrequency = [2, 0] ∧ holders present.pm 0 = 1 ∧
      gone.pm.pieceFrequency = [1, 0] ∧ gone.pm.conns.size = 0 := by
  obtain ⟨start, present, gone, created, moves, dropped, twice, single, left, empty⟩ :
      ∃ start present gone, create twoPieces (List.replicate 20 7) none 60 = .ok start ∧
        run act ⟨start, []⟩ [.promote { fd := 9 } ⟨[], []⟩ 0 true,
          .receive 0 (Message.bytes (.have_ 0)) 0, .message 0,
          .receive 0 (Message.bytes (.bitfield [128])) 0, .message 0] = some present ∧
        act present (.drop 0) = some gone ∧
        present.pm.pieceFrequency = [2, 0] ∧ holders present.pm 0 = 1 ∧
        gone.pm.pieceFrequency = [1, 0] ∧ gone.pm.conns.size = 0 := by
    refine ⟨_, _, _, rfl, rfl, rfl, ?_, ?_, ?_, ?_⟩ <;> decide +kernel
  have begun : Reachable act (Started twoPieces (List.replicate 20 7) none 60) ⟨start, []⟩ :=
    .start _ ⟨created, rfl⟩
  have reached := begun.run moves
  exact ⟨present, gone, reached, .next present gone (.drop 0) reached dropped, twice, single, left,
    empty⟩

end TorrentPeer.PeerManager
