import TorrentPeer.Runtime.Asking
import TorrentPeer.Runtime.Staleness
import TorrentPeer.Runtime.PeerCalls

/-! Requests to a peer that come to nothing: taken back by its Choke, given up after their time, or
for a block of a piece that then failed. Apart from these no block is asked for twice. -/

namespace TorrentPeer.Session

open Torrent PeerManager PieceManager Wire Transition

def pledged (id : Nat) (r : BlockRequest) : PeerEvent → Nat
  | .choke peer reqs => if peer = id then reqs.count r else 0
  | .piece peer block => if peer = id ∧ answerOf block = r then 1 else 0
  | _ => 0

def pledgedIn (id : Nat) (r : BlockRequest) (queue : List PeerEvent) : Nat := (queue.map (pledged id r)).sum

def arrived (pieces : PieceManager) (r : BlockRequest) : Nat :=
  if pieces.have_.get r.pieceIndex = true ∨ pieces.got r.pieceIndex (r.offset / kBlockSize) ≠ none then 1 else 0

def pieceRequests (t : TorrentFile) (index : Nat) : List BlockRequest :=
  (List.range (blockCount t index)).map (requestOf t index)

def torrentRequests (t : TorrentFile) : List BlockRequest := (List.range t.pieces.length).flatMap (pieceRequests t)

def voided (sha1 : Bytes → Bytes) (pieces : PieceManager) (id : Nat) (c : PeerConnection) :
    PeerEvent → List BlockRequest
  | .choke peer reqs => if peer = id then reqs else []
  | .piece _ block =>
    match pieces.onBlock sha1 block with
    | .ok (result, _) =>
      if result.status = .pieceFailed then
        (pieceRequests pieces.torrent block.pieceIndex).filter (fun r => decide (r ∈ requestedOf c))
      else []
    | .error _ => []
  | _ => []

def forfeits (sha1 : Bytes → Bytes) (id : Nat) (sys : Sys) (input : Input) : List BlockRequest :=
  match sys.session.peers.conns.find? id with
  | none => []
  | some c =>
    match sys.phase, input with
    | .dispatching (event :: _), .dispatch _ => voided sha1 sys.session.pieces id c event
    | .dispatching [], .settle _ _ now _ => (takeStale c.pending (now - kRequestTimeout)).1
    | _, _ => []

def Covered (id : Nat) (spare : BlockRequest → Nat) (conns : Table Nat PeerConnection) (queue : List PeerEvent) :
    Prop :=
  ∀ c, conns.find? id = some c → ∀ r, (requestedOf c).count r ≤ waits r c + pledgedIn id r queue + spare r

section Rounds

variable {id : Nat} {spare extra : BlockRequest → Nat} {conns next : Table Nat PeerConnection}
  {queue later : List PeerEvent}

theorem pledgedIn_append (r : BlockRequest) (event : PeerEvent) :
    pledgedIn id r (queue ++ [event]) = pledgedIn id r queue + pledged id r event := by
  rw [pledgedIn, List.map_append, List.sum_append]
  rfl

theorem pledgedIn_cons (r : BlockRequest) (event : PeerEvent) :
    pledgedIn id r (event :: queue) = pledged id r event + pledgedIn id r queue := by
  rw [pledgedIn, List.map_cons, List.sum_cons]
  rfl

/-- A connection without requests, or one that differs from the one of its number in other things. -/
def Bystands (conns : Table Nat PeerConnection) (id : Nat) (c : PeerConnection) : Prop :=
  requestedOf c = [] ∨
    ∃ old, conns.find? id = some old ∧ requestedOf c = requestedOf old ∧ c.pending = old.pending

theorem Covered.bystands (covered : Covered id spare conns queue)
    (same : ∀ c, next.find? id = some c → Bystands conns id c)
    (more : ∀ r, pledgedIn id r queue + spare r ≤ pledgedIn id r later + extra r) : Covered id extra next later := by
  intro c found r
  rcases same c found with nothing | ⟨old, present, asks, pending⟩
  · rw [nothing, List.count_nil]
    exact Nat.zero_le _
  · have before := covered old present r
    have enough := more r
    rw [asks, waits, pending]
    rw [waits] at before
    omega

theorem Bystands.same {c : PeerConnection} (found : conns.find? id = some c) : Bystands conns id c :=
  Or.inr ⟨c, found, rfl, rfl⟩

theorem modify_bystands {other : Nat} {change : PeerConnection → PeerConnection}
    (keeps : ∀ c, requestedOf (change c) = requestedOf c ∧ (change c).pending = c.pending) {c : PeerConnection}
    (found : (conns.modify other change).find? id = some c) : Bystands conns id c := by
  obtain ⟨old, present, same | ⟨-, same⟩⟩ := find_modify_some found
  · exact Or.inr ⟨old, present, by rw [same], by rw [same]⟩
  · exact Or.inr ⟨old, present, by rw [same]; exact (keeps old).1, by rw [same]; exact (keeps old).2⟩

theorem effect_pledged {c : PeerConnection} {frequency : List Nat} {out : List PeerEvent} {msg : Bytes}
    {handled : Handled} (effect : PeerConnection.Effect c id frequency out msg handled) (short : msg.length ≤ 2 ^ 20)
    (r : BlockRequest) : waits r handled.conn + pledgedIn id r handled.out = waits r c + pledgedIn id r out := by
  cases effect with
  | flags choking interested got thrown => rfl
  | had index field fresh stored => rfl
  | announced payload field shape first parsed => rfl
  | unchoked =>
    rw [pledgedIn_append]
    rfl
  | asked req unchoked small index offset =>
    rw [pledgedIn_append]
    rfl
  | choked =>
    rw [pledgedIn_append, pledged, if_pos rfl, waits, waits]
    simp only [requestsOf, List.map_nil, List.count_nil]
    omega
  | delivered k block size answered =>
    have exact : block.data.length % 2 ^ 32 = block.data.length := Nat.mod_eq_of_lt (by omega)
    rw [exact] at answered
    have moved := count_eraseIdx c.pending k (answerOf block) r answered
    simp only [waits, pledgedIn_append, pledged, true_and]
    omega
  | withdrawn req =>
    rw [pledgedIn, pledgedIn, sum_eraseLast]
    intro event same
    rw [of_decide_eq_true same]
    rfl
  | cancelled index offset length =>
    obtain ⟨_, _, same⟩ := c.removeQueuedPiece_shape index offset length
    rw [same]
    rfl

theorem effect_apart {c : PeerConnection} {peer : Nat} {frequency : List Nat} {out : List PeerEvent} {msg : Bytes}
    {handled : Handled} (effect : PeerConnection.Effect c peer frequency out msg handled) (apart : peer ≠ id)
    (r : BlockRequest) : pledgedIn id r handled.out = pledgedIn id r out := by
  cases effect with
  | unchoked =>
    rw [pledgedIn_append]
    rfl
  | asked req unchoked small index offset =>
    rw [pledgedIn_append]
    rfl
  | choked => rw [pledgedIn_append, pledged, if_neg apart, Nat.add_zero]
  | delivered k block size answered =>
    rw [pledgedIn_append, pledged, if_neg (fun both => apart both.1), Nat.add_zero]
  | withdrawn req =>
    rw [pledgedIn, pledgedIn, sum_eraseLast]
    intro event same
    rw [of_decide_eq_true same]
    rfl
  | _ => rfl

theorem covered_promote {w after : World} {sock : Socket} {peer : Peer} {now : Time} {answers : Bool}
    (moves : act w (.promote sock peer now answers) = some after)
    (covered : Covered id spare w.pm.conns w.out) : Covered id spare after.pm.conns after.out := by
  have joined : ∀ r, pledgedIn id r w.out + spare r ≤
      pledgedIn id r (w.out ++ [.joined (w.pm.promoted % 2 ^ 32)]) + spare r := by
    intro r
    rw [pledgedIn_append]
    omega
  have out : after.out = w.out ++ [.joined (w.pm.promoted % 2 ^ 32)] := by
    simp only [act] at moves
    split at moves
    · cases moves
      rfl
    · cases moves
  rw [out]
  refine covered.bystands (fun c found => ?_) joined
  have own : (Act.promote sock peer now answers).Own := trivial
  rcases act_connection own moves found with
    ⟨old, present, same | ⟨serving, -⟩ | ⟨-, same⟩⟩ | ⟨-, -, -, -, sock, peer, now, answers, -, same⟩
  · rw [same]
    exact .same present
  · cases serving
  · rw [same]
    exact Or.inr ⟨old, present, requested_enqueue old (.handshake w.pm.torrent w.pm.peerId) (by simp), rfl⟩
  · rw [same]
    cases answers <;> exact Or.inl rfl

theorem covered_message {w after : World} {peer : Nat} (moves : act w (.message peer) = some after)
    (covered : Covered id spare w.pm.conns w.out) : Covered id spare after.pm.conns after.out := by
  obtain ⟨c, msg, rest, handled, located, extracted, effect, same⟩ := act_message moves
  subst same
  have asks : requestedOf handled.conn = requestedOf c := by
    rw [requestedOf, effect_enqueued effect, requestedOf]
  intro d found r
  rw [Table.find_modify] at found
  split at found
  · rename_i here
    subst here
    rw [located, Option.map_some, Option.some.injEq] at found
    subst found
    have before := covered c located r
    have moved := effect_pledged effect (extractMessage_short extracted) r
    have read : waits r { c with readBuffer := rest, handled := c.handled ++ [msg] } = waits r c := rfl
    rw [asks]
    dsimp only
    omega
  · rename_i apart
    have before := covered d found r
    have same := effect_apart effect (Ne.symm apart) r
    dsimp only
    omega

theorem covered_act {w after : World} {a : Act} (own : a.Own) (moves : act w a = some after)
    (covered : Covered id spare w.pm.conns w.out) : Covered id spare after.pm.conns after.out := by
  have plain : ∀ r, pledgedIn id r w.out + spare r ≤ pledgedIn id r w.out + spare r := fun _ => Nat.le_refl _
  cases a with
  | send | ban | collect => cases own
  | promote sock peer now answers => exact covered_promote moves covered
  | drain other result now =>
    cases moves
    refine covered.bystands (fun c found => modify_bystands (fun d => ⟨?_, drain_pending d result now⟩) found) plain
    rw [requestedOf, drain_enqueued, requestedOf]
  | receive other chunk now =>
    cases moves
    refine covered.bystands (fun c found => modify_bystands ?_ found) plain
    exact fun d => ⟨rfl, rfl⟩
  | keepAlives now =>
    cases moves
    refine covered.bystands (fun c found => ?_) plain
    simp only [PeerManager.keepAlives, Table.find_update] at found
    obtain ⟨old, present, same⟩ := Option.map_eq_some_iff.mp found
    rw [← same]
    split
    · exact Or.inr ⟨old, present, requested_enqueue old .keepAlive (by simp), rfl⟩
    · exact .same present
  | outside other =>
    cases moves
    exact covered
  | drop other =>
    rcases act_drop moves with ⟨-, same⟩ | ⟨c, located, same⟩
    · rw [same]
      exact covered
    · subst same
      refine covered.bystands (fun d found => ?_) ?_
      · rw [Table.find_erase] at found
        split at found
        · cases found
        · exact .same found
      · intro r
        rw [pledgedIn_append]
        omega
  | message peer => exact covered_message moves covered

theorem covered_acts {w after : World} (moves : Acts w after) (covered : Covered id spare w.pm.conns w.out) :
    Covered id spare after.pm.conns after.out :=
  Reaches.preserves (fun _ _ _ own before moved => covered_act own moved before) moves covered

end Rounds

/-- Every request to the peer is one of the torrent's, and accounted for. -/
structure Settlement (t : TorrentFile) (id : Nat) (lost : List BlockRequest) (f : Flow) : Prop where
  formed : ∀ c, f.session.peers.conns.find? id = some c → requestedOf c ⊆ torrentRequests t
  covered : Covered id (fun r => arrived f.session.pieces r + lost.count r) f.session.peers.conns f.queue

section Requests

variable {t : TorrentFile} {index b : Nat}

theorem mem_pieceRequests (low : b < blockCount t index) : requestOf t index b ∈ pieceRequests t index :=
  List.mem_map.mpr ⟨b, List.mem_range.mpr low, rfl⟩

theorem mem_torrentRequests {r : BlockRequest} :
    r ∈ torrentRequests t ↔ ∃ index < t.pieces.length, ∃ b < blockCount t index, r = requestOf t index b := by
  simp only [torrentRequests, pieceRequests, List.mem_flatMap, List.mem_range, List.mem_map]
  constructor
  · rintro ⟨index, inside, b, low, same⟩
    exact ⟨index, inside, b, low, same.symm⟩
  · rintro ⟨index, inside, b, low, same⟩
    exact ⟨index, inside, b, low, same.symm⟩

theorem torrentRequests_length (geometry : Geometry t) : (torrentRequests t).length ≤ 4096 * t.pieces.length := by
  have each : ∀ size ∈ (List.range t.pieces.length).map (fun index => (pieceRequests t index).length),
    size ≤ 4096 := by
    intro size member
    obtain ⟨index, inside, rfl⟩ := List.mem_map.mp member
    rw [pieceRequests, List.length_map, List.length_range]
    exact (blockCount_bound geometry index (List.mem_range.mp inside)).2
  have sum := List.sum_le_card_nsmul _ _ each
  rw [List.length_map, List.length_range, nsmul_eq_mul, Nat.mul_comm] at sum
  rw [torrentRequests, List.length_flatMap]
  exact sum

theorem arrived_release (pieces : PieceManager) (reqs : List BlockRequest) (r : BlockRequest) :
    arrived (pieces.release reqs) r = arrived pieces r := by
  rw [arrived, arrived, release_have, got_release]

theorem arrived_unrequested {pieces : PieceManager} (valid : Valid t pieces) {r : BlockRequest}
    (requested : pieces.isRequested r = true) : arrived pieces r = 0 := by
  obtain ⟨-, state⟩ := of_decide_eq_true requested
  obtain ⟨pp, found, slot⟩ := Option.bind_eq_some_iff.mp state
  have wanted := (valid.parts _ pp found).2.1
  rw [arrived, if_neg]
  rw [got_found found, gotIn, slot, if_neg (by decide), wanted]
  simp

/-- A request is pending or reported once at most, and not when its block is here. -/
theorem Balanced.single {f : Flow} (balanced : Balanced f) (valid : Valid t f.session.pieces) {id : Nat}
    {c : PeerConnection} (found : f.session.peers.conns.find? id = some c) (r : BlockRequest) :
    waits r c + pledgedIn id r f.queue + arrived f.session.pieces r ≤ 1 := by
  have books := balanced r
  have waiting := Table.total_erase f.session.peers.conns id c (waits r) found
  have reported : pledgedIn id r f.queue ≤ (f.queue.map (claims r)).sum := by
    apply List.sum_le_sum
    intro event _
    cases event with
    | choke peer reqs =>
      rw [pledged, claims]
      split <;> omega
    | piece peer block =>
      rw [pledged, claims]
      split
      · rename_i both
        rw [if_pos both.2]
      · omega
    | _ => exact Nat.zero_le _
  have bound : arrived f.session.pieces r ≤ 1 := by
    rw [arrived]
    split <;> omega
  rw [outstanding] at books
  by_cases requested : f.session.pieces.isRequested r = true
  · rw [if_pos requested] at books
    rw [arrived_unrequested valid requested]
    omega
  · rw [if_neg requested] at books
    omega

theorem Settlement.few {id : Nat} {lost : List BlockRequest} {f : Flow} (geometry : Geometry t)
    (settled : Settlement t id lost f) (balanced : Balanced f) (valid : Valid t f.session.pieces) {c : PeerConnection}
    (found : f.session.peers.conns.find? id = some c) :
    (requestedOf c).length ≤ 4096 * t.pieces.length + lost.length := by
  have counted : ∀ r ∈ requestedOf c, (requestedOf c).count r ≤ (torrentRequests t ++ lost).count r := by
    intro r member
    have listed := List.count_pos_iff.mpr (settled.formed c found member)
    have most := settled.covered c found r
    have once := balanced.single valid found r
    dsimp only at most
    rw [List.count_append]
    omega
  have shorter := (List.subperm_ext_iff.mpr counted).length_le
  have size := torrentRequests_length geometry
  rw [List.length_append] at shorter
  omega

end Requests

section Steps

variable {sha1 : Bytes → Bytes} {kernel : Kernel} {t : TorrentFile} {id : Nat} {lost : List BlockRequest}

theorem banAll_frame (order : Bytes → List Nat) (hosts : List Bytes) (s next : Session)
    (banned : banAll kernel order hosts s = .ok next) :
    (∀ id c, next.peers.conns.find? id = some c → s.peers.conns.find? id = some c) ∧
      ∀ r, arrived next.pieces r = arrived s.pieces r := by
  induction hosts generalizing s with
  | nil =>
    cases banned
    exact ⟨fun _ _ found => found, fun _ => rfl⟩
  | cons host hosts ih =>
    obtain ⟨middle, one, rest⟩ := bind_ok banned
    obtain ⟨reqs, returned⟩ := ban_returns kernel s (order host) host
    rw [one] at returned
    cases returned
    obtain ⟨conns, pieces⟩ := ih _ rest
    refine ⟨fun id c found => ?_, fun r => (pieces r).trans (arrived_release s.pieces reqs r)⟩
    have present := conns id c found
    dsimp only at present
    rw [PeerManager.ban] at present
    split at present
    · exact present
    · rw [dropAll_conns] at present
      split at present
      · cases present
      · exact present

theorem expireAll_arrived (cutoff : Time) (ids : List Nat) (s : Session) (r : BlockRequest) :
    arrived (s.expireAll cutoff ids).pieces r = arrived s.pieces r := by
  induction ids generalizing s with
  | nil => rfl
  | cons id ids ih =>
    refine (ih (expirePeer cutoff s id)).trans ?_
    unfold expirePeer
    split
    · rfl
    · dsimp only
      split
      · rfl
      · exact arrived_release s.pieces _ r

section Filing

variable {pieces next : PieceManager} {block : Block} {pp : PartialPiece} {b : Nat} {result : BlockResult}
  (valid : Valid t pieces) (fits : Fits pieces block pp b)
  (whole : block.data.length = (requestOf t block.pieceIndex b).length)
  (verdict : Verdict sha1 pieces block pp b result next)

include valid fits whole verdict

theorem arrived_other {r : BlockRequest} (other : r.pieceIndex ≠ block.pieceIndex) :
    arrived pieces r ≤ arrived next r := by
  have got := verdict.got valid fits whole r.pieceIndex (r.offset / kBlockSize)
  rw [if_neg other] at got
  have kept : pieces.have_.get r.pieceIndex = true → next.have_.get r.pieceIndex = true := by
    cases verdict with
    | incomplete short => exact id
    | failed full wrong => exact id
    | verified _ full right marked =>
      intro held
      have gained := (markHave_valid (erase_valid valid block.pieceIndex) block.pieceIndex fits.counted fits.wanted
        (by simp) marked).2.2.2 r.pieceIndex
      rw [gained, Bool.or_eq_true]
      exact Or.inr held
  rw [arrived, arrived, got]
  split
  · rename_i here
    rw [if_pos (here.imp_left kept)]
  · exact Nat.zero_le _

theorem arrived_same {r : BlockRequest} (same : r.pieceIndex = block.pieceIndex)
    (passed : result.status ≠ .pieceFailed) (here : answerOf block = r ∨ arrived pieces r = 1) :
    arrived next r = 1 := by
  have got := verdict.got valid fits whole r.pieceIndex (r.offset / kBlockSize)
  rw [if_pos same] at got
  rw [arrived, if_pos]
  cases verdict with
  | failed full wrong => exact absurd rfl passed
  | verified _ full right marked =>
    have gained := (markHave_valid (erase_valid valid block.pieceIndex) block.pieceIndex fits.counted fits.wanted
      (by simp) marked).2.2.2 r.pieceIndex
    rw [gained, decide_eq_true same]
    exact Or.inl rfl
  | incomplete short =>
    right
    rw [got, if_pos rfl]
    split
    · exact Option.some_ne_none _
    · rename_i elsewhere
      rcases here with answer | before
      · have place : block.offset / kBlockSize = b := by rw [fits.offset, Nat.mul_div_cancel b (by decide)]
        rw [← answer] at elsewhere
        exact absurd place elsewhere
      · rw [arrived] at before
        split at before
        · rename_i either
          rw [same, fits.wanted] at either
          rw [same]
          exact either.resolve_left Bool.false_ne_true
        · cases before

end Filing

theorem Judged.accounts (id : Nat) {f : Flow} {judged : Session} {peer : Nat} {block : Block} {result : BlockResult}
    {hosts : List Bytes} {rest : List PeerEvent} (books : Books sha1 t f)
    (front : f.queue = .piece peer block :: rest)
    (outcome : Judged sha1 kernel f.session peer block result hosts judged)
    (accepted : result.status ≠ .rejected) (r : BlockRequest) :
    pledged id r (.piece peer block) + arrived f.session.pieces r ≤ arrived judged.pieces r +
      (if result.status = .pieceFailed ∧ r.pieceIndex = block.pieceIndex then 1 else 0) := by
  have settled : ∀ {pp b next}, Fits f.session.pieces block pp b →
      Verdict sha1 f.session.pieces block pp b result next →
      pledged id r (.piece peer block) + arrived f.session.pieces r ≤ arrived next r +
        (if result.status = .pieceFailed ∧ r.pieceIndex = block.pieceIndex then 1 else 0) := by
    intro pp b next fits verdict
    have whole := books.balanced.whole books.valid front fits
    by_cases same : r.pieceIndex = block.pieceIndex
    · have most : arrived f.session.pieces r ≤ 1 := by
        rw [arrived]
        split <;> omega
      have fresh : answerOf block = r → arrived f.session.pieces r = 0 := by
        rintro rfl
        exact arrived_unrequested books.valid (books.balanced.front peer block rest front)
      have once : pledged id r (.piece peer block) ≤ if answerOf block = r then 1 else 0 := by
        rw [pledged]
        split
        · rename_i both
          rw [if_pos both.2]
        · exact Nat.zero_le _
      by_cases passed : result.status = .pieceFailed
      · rw [if_pos ⟨passed, same⟩]
        split at once
        · rename_i answer
          have nothing := fresh answer
          omega
        · omega
      · have stays := arrived_same books.valid fits whole verdict same passed
        rw [if_neg (fun both => passed both.1)]
        split at once
        · rename_i answer
          have nothing := fresh answer
          have now := stays (Or.inl answer)
          omega
        · by_cases before : arrived f.session.pieces r = 1
          · have now := stays (Or.inr before)
            omega
          · omega
    · have none_here : pledged id r (.piece peer block) = 0 := by
        rw [pledged, if_neg]
        rintro ⟨-, rfl⟩
        exact same rfl
      have kept := arrived_other books.valid fits whole verdict same
      omega
  cases outcome with
  | rejected count piece => exact absurd rfl accepted
  | incomplete count pp b pieces fits verdict => exact settled fits verdict
  | failed count pp b pieces piece fits verdict => exact settled fits verdict
  | verified count pp b pieces piece written fits verdict stored => exact settled fits verdict

theorem Judged.bystands {s judged : Session} {peer : Nat} {block : Block} {result : BlockResult} {hosts : List Bytes}
    (outcome : Judged sha1 kernel s peer block result hosts judged) {c : PeerConnection}
    (found : judged.peers.conns.find? id = some c) : Bystands s.peers.conns id c := by
  cases outcome with
  | verified count pp b pieces piece written fits verdict stored =>
    simp only [broadcastHave, Table.find_update] at found
    obtain ⟨old, present, same⟩ := Option.map_eq_some_iff.mp found
    rw [← same]
    exact Or.inr ⟨old, present, requested_enqueue old (.have_ piece.index) (by simp), rfl⟩
  | _ => exact .same found

theorem Settlement.formed_quiets (geometry : Geometry t) {f next : Flow} (settled : Settlement t id lost f)
    (custody : Custody sha1 t f) (moves : Quiets sha1 kernel f next) :
    ∀ c, next.session.peers.conns.find? id = some c → requestedOf c ⊆ torrentRequests t := by
  intro c found
  rcases ((moves.descend geometry custody).2 id c found).continues with ⟨nothing, -⟩ | ⟨old, present, same, -⟩
  · rw [nothing]
    exact List.nil_subset _
  · rw [same]
    exact settled.formed old present

theorem covered_piece {f : Flow} {next : Session} {peer : Nat} {block : Block} {rest : List PeerEvent}
    {order : Bytes → List Nat} (books : Books sha1 t f) (geometry : Geometry t) (settled : Settlement t id lost f)
    (front : f.queue = .piece peer block :: rest)
    (dispatched : f.session.onPiece sha1 kernel order peer block = .ok next) {c : PeerConnection}
    (found : f.session.peers.conns.find? id = some c) :
    Covered id (fun r => arrived next.pieces r +
      (lost ++ voided sha1 f.session.pieces id c (.piece peer block)).count r) next.peers.conns rest := by
  obtain ⟨⟨result, taken⟩, took, onward⟩ := bind_ok dispatched
  obtain ⟨⟨hosts, judged⟩, verdict, banned⟩ := bind_ok onward
  obtain ⟨⟨answer, pieces⟩, filed, same⟩ := bind_ok took
  have status : answer = result := congrArg Prod.fst (Except.ok.inj same)
  subst status
  have outcome := judge_cases sha1 kernel f.session taken judged peer block answer hosts took verdict
  have accepted := books.balanced.accepted geometry books.valid front ⟨pieces, filed⟩
  obtain ⟨conns, kept⟩ := banAll_frame order hosts judged next banned
  intro d present r
  rcases outcome.bystands (conns id d present) with nothing | ⟨old, located, asks, pending⟩
  · rw [nothing, List.count_nil]
    exact Nat.zero_le _
  · rw [found] at located
    cases located
    have before := settled.covered c found r
    rw [front, pledgedIn_cons] at before
    have moved := outcome.accounts id books front accepted r
    dsimp only at before ⊢
    rw [asks, waits, pending, kept r, List.count_append]
    rw [waits] at before
    by_cases asked : r ∈ requestedOf c
    · have void : (if answer.status = .pieceFailed ∧ r.pieceIndex = block.pieceIndex then 1 else 0) ≤
          (voided sha1 f.session.pieces id c (.piece peer block)).count r := by
        split
        · rename_i failed
          obtain ⟨index, inside, b, low, rfl⟩ := mem_torrentRequests.mp (settled.formed c found asked)
          have here : index = block.pieceIndex := failed.2
          apply List.count_pos_iff.mpr
          simp only [voided, filed, if_pos failed.1, books.valid.torrent]
          rw [List.mem_filter, ← here]
          exact ⟨mem_pieceRequests low, decide_eq_true asked⟩
        · exact Nat.zero_le _
      omega
    · rw [List.count_eq_zero.mpr asked]
      exact Nat.zero_le _

theorem covered_other (kernel : Kernel) {f : Flow} {next : Session} {event : PeerEvent} {rest : List PeerEvent}
    (geometry : Geometry t)
    (custody : Custody sha1 t f) (settled : Settlement t id lost f) (front : f.queue = event :: rest)
    (other : ∀ peer block, event ≠ .piece peer block) (dispatched : f.session.dispatchOther kernel event = .ok next)
    (c : PeerConnection) :
    Covered id (fun r => arrived next.pieces r + (lost ++ voided sha1 f.session.pieces id c event).count r)
      next.peers.conns rest := by
  have covered := settled.covered
  rw [front] at covered
  have popped : ∀ pieces, (∀ r, pledged id r event = 0) → voided sha1 f.session.pieces id c event = [] →
      (∀ r, arrived pieces r = arrived f.session.pieces r) → ∀ r,
      pledgedIn id r (event :: rest) + (arrived f.session.pieces r + lost.count r) ≤ pledgedIn id r rest +
        (arrived pieces r + (lost ++ voided sha1 f.session.pieces id c event).count r) := by
    intro pieces none_held none_void same r
    rw [pledgedIn_cons, none_held r, none_void, List.append_nil, same r, Nat.zero_add]
  cases event with
  | piece peer block => exact absurd rfl (other peer block)
  | joined peer =>
    cases dispatched
    refine covered.bystands (fun d present => ?_) (popped _ (fun _ => rfl) rfl (fun _ => rfl))
    rw [onJoined_peers] at present
    refine modify_bystands (fun old => ⟨requested_greeted _ _ old, ?_⟩) present
    unfold greeted
    cases f.session.pieces.isComplete <;> rfl
  | request peer req =>
    have typed := custody.typed (.request peer req) (by rw [front]; exact List.mem_cons_self ..)
    cases serve_cases geometry custody.sound peer req next typed dispatched with
    | ignored read same =>
      exact covered.bystands (fun d present => .same present) (popped _ (fun _ => rfl) rfl (fun _ => rfl))
    | sent read same held space inside count =>
      refine covered.bystands (fun d present => modify_bystands ?_ present)
        (popped _ (fun _ => rfl) rfl (fun _ => rfl))
      exact fun old => ⟨requested_enqueue old (.piece _ _ _) (by simp), rfl⟩
  | choke peer reqs =>
    cases dispatched
    refine covered.bystands (fun d present => .same present) (fun r => ?_)
    dsimp only
    rw [pledgedIn_cons, pledged, voided, List.count_append, arrived_release]
    by_cases own : peer = id
    · rw [if_pos own, if_pos own]
      omega
    · rw [if_neg own, if_neg own]
      omega
  | dropped peer reqs =>
    cases dispatched
    exact covered.bystands (fun d present => .same present)
      (popped _ (fun _ => rfl) rfl (arrived_release f.session.pieces reqs))
  | unchoke peer =>
    cases dispatched
    exact covered.bystands (fun d present => .same present) (popped _ (fun _ => rfl) rfl (fun _ => rfl))

theorem covered_settle (kernel : Kernel) (geometry : Geometry t) {f : Flow} (custody : Custody sha1 t f)
    (settled : Settlement t id lost f)
    (env : Env) (fresh : List Peer) (now : Time) (order : List Nat) {c : PeerConnection}
    (found : f.session.peers.conns.find? id = some c) :
    Covered id (fun r => arrived (f.session.settleRound env fresh now order).pieces r +
        (lost ++ (takeStale c.pending (now - kRequestTimeout)).1).count r)
      (f.session.settleRound env fresh now order).peers.conns f.queue := by
  have descends := (settle_moves sha1 kernel f env fresh now order).descend geometry custody
  have conns : (f.session.addFresh env fresh).peers.conns = f.session.peers.conns := by
    unfold addFresh
    split
    · rfl
    · exact (addPeers_apart env f.session.peers fresh).conns
  have pieces : ∀ r, arrived (f.session.settleRound env fresh now order).pieces r = arrived f.session.pieces r := by
    intro r
    have joined : (f.session.addFresh env fresh).pieces = f.session.pieces := by
      unfold addFresh
      split <;> rfl
    rw [settleRound, noteCompletion]
    split
    · exact (expireAll_arrived _ _ _ r).trans (by rw [joined])
    · exact (expireAll_arrived _ _ _ r).trans (by rw [joined])
  intro d present r
  rcases (descends.2 id d present).continues with ⟨nothing, -⟩ | ⟨old, located, asks, -⟩
  · rw [nothing, List.count_nil]
    exact Nat.zero_le _
  · rw [found] at located
    cases located
    have before := settled.covered c found r
    have kept : ((f.session.addFresh env fresh).expireAll (now - kRequestTimeout)
        ((f.session.addFresh env fresh).peers.conns.arrange order)).peers.conns.find? id = some d := by
      rw [settleRound, noteCompletion] at present
      split at present <;> exact present
    obtain ⟨old, earlier, pending⟩ := expireAll_pending _ _ _ _ _ kept
    rw [conns, found] at earlier
    cases earlier
    have stale := congrArg (List.count r) (takeStale_split c.pending (now - kRequestTimeout))
    rw [List.count_append] at stale
    have fewer : waits r c ≤ waits r d + ((takeStale c.pending (now - kRequestTimeout)).1).count r := by
      rw [waits, waits, requestsOf, requestsOf, pending]
      split <;> omega
    dsimp only at before ⊢
    rw [asks, pieces r, List.count_append]
    omega

theorem covered_round {f : Flow} (room : f.session.peers.Room) (settled : Settlement t id lost f)
    (idle : f.queue = [])
    (order : List Nat) (revents : Nat → Nat) (env : Env) :
    Covered id (fun r => arrived (f.session.pollRound order revents env).1.pieces r + lost.count r)
      (f.session.pollRound order revents env).1.peers.conns (f.session.pollRound order revents env).2 := by
  have pieces : (f.session.pollRound order revents env).1.pieces = f.session.pieces := rfl
  have covered := settled.covered
  rw [idle] at covered
  rw [pieces]
  exact covered_acts (pollRound_acts order revents env room).1 covered

theorem Settlement.ask (geometry : Geometry t) {f : Flow} {next : Session} (books : Books sha1 t f)
    (settled : Settlement t id lost f) (ask : Ask f.session next) :
    Settlement t id lost { f with session := next } := by
  cases ask with
  | decline peer c choice pieces picked =>
    have same := pickBlock_none geometry books.valid _ _ _ _ _ picked
    subst same
    exact ⟨settled.formed, settled.covered⟩
  | ask peer c choice now req pieces located unchoked slot picked =>
    obtain ⟨opened, pp, b, pick⟩ := pickBlock_some geometry books.valid _ _ _ _ _ _ picked
    obtain ⟨index, offset, length⟩ := picked_small geometry books.custody picked
    have kept : ∀ r, arrived pieces r = arrived f.session.pieces r := by
      intro r
      rw [arrived, arrived, pick.same_have, pick.got]
    have listed : req ∈ torrentRequests t := by
      obtain ⟨low, -⟩ := List.getElem?_eq_some_iff.mp pick.missing
      rw [(pick.valid.parts _ pp pick.found).2.2.states] at low
      exact mem_torrentRequests.mpr ⟨req.pieceIndex, books.valid.inside _ pick.counted, b, low, pick.request⟩
    refine ⟨?_, ?_⟩
    · intro d found
      obtain ⟨old, present, same | ⟨-, same⟩⟩ := find_modify_some found
      · rw [same]
        exact settled.formed old present
      · rw [same, requestedOf_request old req now index offset length]
        exact List.append_subset.mpr ⟨settled.formed old present, by simpa using listed⟩
    · intro d found r
      dsimp only
      rw [kept r]
      obtain ⟨old, present, same | ⟨-, same⟩⟩ := find_modify_some found
      · rw [same]
        exact settled.covered old present r
      · have before := settled.covered old present r
        have waiting : waits r d = waits r old + [req].count r := by
          rw [same, waits, waits, requestsOf, PeerConnection.enqueue, List.map_append, List.count_append]
          rfl
        rw [waiting, same, requestedOf_request old req now index offset length, List.count_append]
        dsimp only at before
        omega

end Steps

section Runs

variable {sha1 : Bytes → Bytes} {kernel : Kernel} {t : TorrentFile} {id : Nat}

theorem covered_step (geometry : Geometry t) {sys next : Sys} {input : Input} {lost : List BlockRequest}
    (books : Books sha1 t sys.flow) (settled : Settlement t id lost sys.flow)
    (moves : Session.step sha1 kernel sys input = some next) (quiet : ∀ env, input ≠ .fill env) {c : PeerConnection}
    (found : sys.session.peers.conns.find? id = some c) :
    Covered id (fun r => arrived next.session.pieces r + (lost ++ forfeits sha1 id sys input).count r)
      next.session.peers.conns next.phase.queue := by
  obtain ⟨session, phase, deliveries, filed⟩ := sys
  dsimp only at found
  rw [forfeits]
  dsimp only
  rw [found]
  unfold Session.step at moves
  split at moves
  · rename_i order here
    dsimp only at here
    subst here
    cases moves
    dsimp only
    rw [List.append_nil, (buildFds_apart session.peers order).conns]
    exact settled.covered
  · rename_i order revents env here
    dsimp only at here
    subst here
    have covered := covered_round books.custody.room settled rfl order revents env
    dsimp only at moves
    rw [show (⟨session, .polling, deliveries, filed⟩ : Sys).flow.session = session from rfl] at covered
    cases round : session.pollRound order revents env with
    | mk after events =>
      rw [round] at moves covered
      cases moves
      rw [List.append_nil]
      exact covered
  · rename_i event rest order here
    dsimp only at here
    subst here
    split at moves
    · cases moves
    · rename_i after dispatched
      cases moves
      cases event with
      | piece peer block => exact covered_piece books geometry settled rfl dispatched found
      | _ => exact covered_other kernel geometry books.custody settled rfl (by simp) dispatched c
  · rename_i env fresh now order here
    dsimp only at here
    subst here
    cases moves
    exact covered_settle kernel geometry books.custody settled env fresh now order found
  · exact absurd rfl (quiet _)
  · cases moves

theorem Settlement.fill (geometry : Geometry t) {f : Flow} {next : Session} {lost : List BlockRequest}
    (books : Books sha1 t f) (settled : Settlement t id lost f) (asks : Asks f.session next) :
    Settlement t id lost { f with session := next } := by
  have along : Books sha1 t { f with session := next } ∧ Settlement t id lost { f with session := next } := by
    induction asks with
    | refl => exact ⟨books, settled⟩
    | @tail middle last _ ask ih =>
      exact ⟨Books.ask (f := { f with session := middle }) geometry ih.1 ask,
        Settlement.ask (f := { f with session := middle }) geometry ih.1 ih.2 ask⟩
  exact along.2

theorem Settlement.step (geometry : Geometry t) {sys next : Sys} {input : Input} {lost : List BlockRequest}
    (books : Books sha1 t sys.flow) (settled : Settlement t id lost sys.flow)
    (moves : Session.step sha1 kernel sys input = some next) :
    Settlement t id (lost ++ forfeits sha1 id sys input) next.flow := by
  by_cases filling : ∃ env, input = .fill env
  · obtain ⟨env, rfl⟩ := filling
    obtain ⟨session, phase, deliveries, filed⟩ := sys
    cases phase with
    | polling => cases moves
    | dispatching queue => cases queue <;> cases moves
    | filling =>
      have none_lost : forfeits sha1 id ⟨session, .filling, deliveries, filed⟩ (.fill env) = [] := by
        rw [forfeits]
        split <;> rfl
      cases moves
      rw [none_lost, List.append_nil]
      exact settled.fill geometry books (fillAll_sends env session).asks
  · rcases step_cases sha1 kernel sys next input moves with quiets | ⟨⟨env, fills, -⟩, -⟩
    · refine ⟨settled.formed_quiets geometry books.custody quiets, ?_⟩
      intro d present r
      rcases ((quiets.descend geometry books.custody).2 id d present).continues with
        ⟨nothing, -⟩ | ⟨c, found, -, -⟩
      · rw [nothing, List.count_nil]
        exact Nat.zero_le _
      · exact covered_step geometry books settled moves (fun env same => filling ⟨env, same⟩) found d present r
    · exact absurd ⟨env, fills⟩ filling

/-- A run with the requests to one peer that have come to nothing. -/
structure Forfeiting where
  sys : Sys
  lost : List BlockRequest

def forfeitStep (sha1 : Bytes → Bytes) (kernel : Kernel) (id : Nat) (l : Forfeiting) (input : Input) :
    Option Forfeiting :=
  (step sha1 kernel l.sys input).map (fun next => ⟨next, l.lost ++ forfeits sha1 id l.sys input⟩)

def ReachedForfeiting (sha1 : Bytes → Bytes) (kernel : Kernel) (t : TorrentFile) (id : Nat) : Forfeiting → Prop :=
  Reachable (forfeitStep sha1 kernel id) (fun l => Begins sha1 kernel t l.sys ∧ l.lost = [])

theorem ReachedForfeiting.forget {l : Forfeiting} (reached : ReachedForfeiting sha1 kernel t id l) :
    Reached sha1 kernel t l.sys := by
  apply Reachable.forget Forfeiting.sys (fun l begins => begins.1) _ reached
  intro l after input moves
  obtain ⟨next, moved, same⟩ := Option.map_eq_some_iff.mp moves
  rw [← same]
  exact moved

theorem reached_settlement {l : Forfeiting} (reached : ReachedForfeiting sha1 kernel t id l) :
    Settlement t id l.lost l.sys.flow := by
  induction reached with
  | start l begins =>
    have alone : l.sys.flow.session.peers.conns.find? id = none := by
      rw [show l.sys.flow.session.peers.conns = Table.empty from (begins_fresh begins.1).conns]
      rfl
    constructor
    · intro c found
      rw [alone] at found
      cases found
    · intro c found
      rw [alone] at found
      cases found
  | next l after input before moves settled =>
    have reached : Reached sha1 kernel t l.sys := ReachedForfeiting.forget before
    obtain ⟨next, moved, same⟩ := Option.map_eq_some_iff.mp moves
    rw [← same]
    exact settled.step (reached_geometry reached) (reached_books reached) moved

end Runs

end TorrentPeer.Session
