import TorrentPeer.Runtime.Custody

/-! Every requested block is waited for exactly once: in one pending list, or in one event
that has not been dispatched yet. -/

namespace TorrentPeer.PeerManager

open Wire Transition

def claims (r : BlockRequest) : PeerEvent → Nat
  | .choke _ reqs => reqs.count r
  | .dropped _ reqs => reqs.count r
  | .piece _ block => if answerOf block = r then 1 else 0
  | _ => 0

def waits (r : BlockRequest) (c : PeerConnection) : Nat := (requestsOf c.pending).count r

def outstanding (conns : Table Nat PeerConnection) (queue : List PeerEvent) (r : BlockRequest) : Nat :=
  conns.total (waits r) + (queue.map (claims r)).sum

theorem outstanding_append (conns : Table Nat PeerConnection) (queue : List PeerEvent)
    (event : PeerEvent) (r : BlockRequest) :
    outstanding conns (queue ++ [event]) r = outstanding conns queue r + claims r event := by
  simp only [outstanding, List.map_append, List.sum_append, List.map_cons, List.map_nil, List.sum_cons,
    List.sum_nil, Nat.add_zero, Nat.add_assoc]

theorem outstanding_cons (conns : Table Nat PeerConnection) (queue : List PeerEvent)
    (event : PeerEvent) (r : BlockRequest) :
    outstanding conns (event :: queue) r = claims r event + outstanding conns queue r := by
  simp only [outstanding, List.map_cons, List.sum_cons]
  omega

theorem sum_eraseP (test : PeerEvent → Bool) (weight : PeerEvent → Nat) (events : List PeerEvent)
    (free : ∀ event, test event = true → weight event = 0) :
    ((events.eraseP test).map weight).sum = (events.map weight).sum := by
  induction events with
  | nil => rfl
  | cons event events ih =>
    rw [List.eraseP_cons]
    cases removed : test event with
    | true => rw [cond_true, List.map_cons, List.sum_cons, free event removed, Nat.zero_add]
    | false => rw [cond_false, List.map_cons, List.map_cons, List.sum_cons, List.sum_cons, ih]

theorem sum_eraseLast (test : PeerEvent → Bool) (weight : PeerEvent → Nat) (events : List PeerEvent)
    (free : ∀ event, test event = true → weight event = 0) :
    ((PeerConnection.eraseLast test events).map weight).sum = (events.map weight).sum := by
  rw [PeerConnection.eraseLast, List.map_reverse, List.sum_reverse, sum_eraseP test weight _ free,
    List.map_reverse, List.sum_reverse]

theorem count_eraseIdx (pending : List PendingRequest) (k : Nat) (req r : BlockRequest)
    (located : (pending[k]?).map PendingRequest.req = some req) :
    (requestsOf (pending.eraseIdx k)).count r + (if req = r then 1 else 0) =
      (requestsOf pending).count r := by
  obtain ⟨entry, stored, rfl⟩ := Option.map_eq_some_iff.mp located
  obtain ⟨bound, value⟩ := List.getElem?_eq_some_iff.mp stored
  have split : pending = pending.take k ++ entry :: pending.drop (k + 1) := by
    rw [← value, ← List.drop_eq_getElem_cons bound, List.take_append_drop]
  rw [List.eraseIdx_eq_take_drop_succ]
  conv_rhs => rw [split]
  simp only [requestsOf, List.map_append, List.map_cons, List.count_append, List.count_cons, beq_iff_eq]
  omega

theorem effect_outstanding {c : PeerConnection} {id : Nat} {frequency : List Nat}
    {out : List PeerEvent} {msg : Bytes} {handled : Handled}
    (effect : PeerConnection.Effect c id frequency out msg handled) (short : msg.length ≤ 2 ^ 20)
    (r : BlockRequest) :
    waits r handled.conn + (handled.out.map (claims r)).sum =
      waits r c + (out.map (claims r)).sum := by
  cases effect with
  | flags choking interested got thrown => rfl
  | had index field fresh stored => rfl
  | announced payload field shape first parsed => rfl
  | unchoked => simp [waits, claims]
  | asked req unchoked small index offset => simp [claims]
  | choked =>
    simp only [waits, requestsOf, List.map_nil, List.count_nil, List.map_append, List.sum_append,
      List.map_cons, List.sum_cons, List.sum_nil, claims]
    omega
  | delivered k block size answered =>
    have exact : block.data.length % 2 ^ 32 = block.data.length := Nat.mod_eq_of_lt (by omega)
    rw [exact] at answered
    have moved := count_eraseIdx c.pending k (answerOf block) r answered
    simp only [waits, List.map_append, List.sum_append, List.map_cons, List.map_nil, List.sum_cons,
      List.sum_nil, claims]
    omega
  | withdrawn req =>
    rw [sum_eraseLast]
    intro event same
    rw [of_decide_eq_true same]
    rfl
  | cancelled index offset length =>
    obtain ⟨_, _, same⟩ := c.removeQueuedPiece_shape index offset length
    rw [same]
    rfl

theorem drain_waits (c : PeerConnection) (r : BlockRequest) (result : Send) (now : Time) :
    waits r (c.drain result now).1 = waits r c := by
  obtain ⟨_, _, _, _, _, same⟩ := c.drain_shape result now
  rw [same]
  rfl

/-- No act of `PeerManager` loses a request or counts one twice. -/
theorem act_outstanding {w next : World} {a : Act} (own : a.Own) (moves : act w a = some next)
    (r : BlockRequest) :
    outstanding next.pm.conns next.out r = outstanding w.pm.conns w.out r := by
  cases a with
  | send | ban | collect => cases own
  | promote sock peer now answers =>
    have joined : ∀ conns : Table Nat PeerConnection, conns.total (waits r) = w.pm.conns.total (waits r) →
        outstanding conns (w.out ++ [.joined (w.pm.promoted % 2 ^ 32)]) r =
          outstanding w.pm.conns w.out r := by
      intro conns same
      rw [outstanding_append, outstanding, same]
      rfl
    cases found : w.pm.conns.find? (w.pm.promoted % 2 ^ 32) with
    | none =>
      obtain ⟨-, same⟩ := act_promote found moves
      subst same
      apply joined
      rw [Table.total_emplace _ _ _ _ found]
      cases answers <;> rfl
    | some old =>
      simp only [act, promote, Table.emplace_present _ _ _ old found] at moves
      split at moves
      · cases moves
        cases answers with
        | false => exact joined _ rfl
        | true => exact joined _ (Table.total_modify_same _ _ _ _ (fun _ _ => rfl))
      · cases moves
  | drain id result now =>
    cases moves
    simp only [outstanding]
    rw [Table.total_modify_same]
    intro c _
    exact drain_waits c r result now
  | receive id chunk now =>
    cases moves
    simp only [outstanding]
    rw [Table.total_modify_same]
    intro c _
    rfl
  | keepAlives now =>
    cases moves
    simp only [outstanding, keepAlives]
    rw [Table.total_update]
    intro id c _
    split <;> rfl
  | outside other =>
    cases moves
    rfl
  | drop id =>
    rcases act_drop moves with ⟨-, same⟩ | ⟨c, found, same⟩
    · rw [same]
    · subst same
      have balance := Table.total_erase w.pm.conns id c (waits r) found
      rw [outstanding_append]
      simp only [outstanding, claims] at balance ⊢
      rw [waits] at balance
      omega
  | message id =>
    obtain ⟨c, msg, rest, handled, found, extracted, effect, same⟩ := act_message moves
    subst same
    have balance := Table.total_modify w.pm.conns id c (fun _ => handled.conn) (waits r) found
    have moved := effect_outstanding effect (extractMessage_short extracted) r
    have read : waits r { c with readBuffer := rest, handled := c.handled ++ [msg] } = waits r c := rfl
    rw [read] at moved
    simp only [outstanding] at balance ⊢
    omega

theorem acts_outstanding {w next : World} (moves : Acts w next) (r : BlockRequest) :
    outstanding next.pm.conns next.out r = outstanding w.pm.conns w.out r := by
  have step : ∀ state after a, Act.Own a →
      outstanding state.pm.conns state.out r = outstanding w.pm.conns w.out r →
      act state a = some after → outstanding after.pm.conns after.out r = outstanding w.pm.conns w.out r := by
    intro state after a own before moved
    rw [act_outstanding own moved r, before]
  exact Reaches.preserves step moves rfl

end TorrentPeer.PeerManager

namespace TorrentPeer.Session

open Torrent PeerManager PieceManager

/-- Every request is outstanding once if its block is requested, and otherwise not at all. -/
def Balanced (f : Flow) : Prop :=
  ∀ r, outstanding f.session.peers.conns f.queue r =
    if f.session.pieces.isRequested r = true then 1 else 0

section Balance

variable {sha1 : Bytes → Bytes} {kernel : Kernel} {t : TorrentFile} {s : Session}

theorem requested_formed {pieces : PieceManager} (valid : Valid t pieces) (r : BlockRequest)
    (requested : pieces.isRequested r = true) :
    r = requestOf t r.pieceIndex (r.offset / kBlockSize) := by
  rw [← valid.torrent]
  exact (of_decide_eq_true requested).1

theorem release_balance {pieces : PieceManager} (valid : Valid t pieces) (reqs : List BlockRequest)
    (before after : BlockRequest → Nat)
    (balanced : ∀ r, before r = if pieces.isRequested r = true then 1 else 0)
    (moved : ∀ r, after r + reqs.count r = before r) (r : BlockRequest) :
    after r = if (pieces.release reqs).isRequested r = true then 1 else 0 := by
  have formed : ∀ req ∈ reqs, req = requestOf t req.pieceIndex (req.offset / kBlockSize) := by
    intro req member
    apply requested_formed valid
    have counted := List.count_pos_iff.mpr member
    have total := moved req
    have books := balanced req
    by_contra unrequested
    rw [if_neg unrequested] at books
    omega
  have total := moved r
  have books := balanced r
  rw [release_requests valid reqs formed r]
  by_cases member : r ∈ reqs
  · have counted := List.count_pos_iff.mpr member
    have gone : (pieces.isRequested r && decide (r ∉ reqs)) = false := by simp [member]
    rw [gone]
    split at books <;> simp only [Bool.false_eq_true, if_false] <;> omega
  · have absent := List.count_eq_zero.mpr member
    have kept : (pieces.isRequested r && decide (r ∉ reqs)) = pieces.isRequested r := by simp [member]
    rw [kept]
    omega

theorem greet_outstanding (id : Nat) (queue : List PeerEvent) (r : BlockRequest) :
    outstanding (s.onJoined id).peers.conns queue r = outstanding s.peers.conns queue r := by
  rw [onJoined_peers, outstanding, Table.total_modify_same, outstanding]
  intro c _
  unfold greeted
  cases s.pieces.isComplete <;> rfl

theorem Balanced.front {f : Flow} (balanced : Balanced f) (id : Nat) (block : Block)
    (rest : List PeerEvent) (front : f.queue = .piece id block :: rest) :
    f.session.pieces.isRequested (answerOf block) = true := by
  have books := balanced (answerOf block)
  rw [front, outstanding_cons, claims, if_pos rfl] at books
  by_contra unrequested
  rw [if_neg unrequested] at books
  omega

theorem Balanced.file {f : Flow} {judged : Session} {id : Nat} {block : Block} {result : BlockResult}
    {hosts : List Bytes} {rest : List PeerEvent} (geometry : Geometry t) (valid : Valid t f.session.pieces)
    (balanced : Balanced f) (front : f.queue = .piece id block :: rest)
    (outcome : Judged sha1 kernel f.session id block result hosts judged)
    (accepted : result.status ≠ .rejected) (r : BlockRequest) :
    outstanding judged.peers.conns rest r = if judged.pieces.isRequested r = true then 1 else 0 := by
  have books := balanced r
  rw [front, outstanding_cons] at books
  have requested := balanced.front id block rest front
  have formed := requested_formed valid _ requested
  -- the filed block is no longer requested, and its event is gone
  have settled : ∀ (pp : PartialPiece) (b : Nat) (verdict : BlockResult) (pieces : PieceManager)
      (conns : Table Nat PeerConnection), Fits f.session.pieces block pp b →
      Verdict sha1 f.session.pieces block pp b verdict pieces →
      outstanding conns rest r = outstanding f.session.peers.conns rest r →
      outstanding conns rest r = if pieces.isRequested r = true then 1 else 0 := by
    intro pp b verdict pieces conns fits decided same
    have place : b = block.offset / kBlockSize := by
      rw [fits.offset, Nat.mul_div_cancel b (by decide)]
    rw [decided.requests geometry valid fits r, place, same]
    by_cases answer : answerOf block = r
    · have asked : r = requestOf t block.pieceIndex (block.offset / kBlockSize) := by
        rw [← answer]
        exact formed
      rw [claims, if_pos answer, ← answer, if_pos requested] at books
      rw [← answer] at asked ⊢
      simp only [asked, ne_eq, not_true_eq_false, decide_false, Bool.and_false, Bool.false_eq_true,
        if_false]
      rw [← asked]
      omega
    · have other : r ≠ requestOf t block.pieceIndex (block.offset / kBlockSize) := by
        intro equal
        exact answer (formed.trans equal.symm)
      rw [claims, if_neg answer] at books
      simp only [other, ne_eq, not_false_eq_true, decide_true, Bool.and_true]
      omega
  cases outcome with
  | rejected count piece => exact absurd rfl accepted
  | incomplete count pp b pieces fits verdict => exact settled pp b _ pieces _ fits verdict rfl
  | failed count pp b pieces piece fits verdict => exact settled pp b _ pieces _ fits verdict rfl
  | verified count pp b pieces piece written fits verdict stored =>
    refine settled pp b _ pieces _ fits verdict ?_
    simp only [outstanding, broadcastHave]
    rw [Table.total_update]
    intro other c _
    rfl

/-- A dispatched Piece event is never rejected. -/
theorem Balanced.accepted {f : Flow} {id : Nat} {block : Block} {result : BlockResult}
    {rest : List PeerEvent} (geometry : Geometry t)
    (valid : Valid t f.session.pieces) (balanced : Balanced f)
    (front : f.queue = .piece id block :: rest)
    (filed : ∃ pieces, f.session.pieces.onBlock sha1 block = .ok (result, pieces)) :
    result.status ≠ .rejected := by
  obtain ⟨pieces, filed⟩ := filed
  obtain ⟨pp, -, verdict⟩ := onBlock_accepts geometry valid sha1 block result pieces
    (balanced.front id block rest front) filed
  cases verdict <;> simp

theorem Balanced.quiet (geometry : Geometry t) {f next : Flow} (custody : Custody sha1 t f)
    (balanced : Balanced f) (move : Quiet sha1 kernel f next) : Balanced next := by
  have valid := custody.sound.valid
  cases move with
  | build order =>
    have apart := buildFds_apart f.session.peers order
    intro r
    dsimp only
    rw [apart.conns]
    exact balanced r
  | round order revents env idle =>
    obtain ⟨acts, -⟩ := pollRound_acts order revents env custody.room
    intro r
    have books := balanced r
    rw [idle] at books
    rw [← acts_outstanding acts r] at books
    exact books
  | dial env fresh =>
    have apart := addPeers_apart env f.session.peers fresh
    intro r
    dsimp only
    rw [apart.conns]
    exact balanced r
  | complete => exact balanced
  | release event rest reqs front gives =>
    refine release_balance valid reqs _ _ balanced ?_
    intro r
    have given : claims r event = reqs.count r := by
      cases event <;> cases gives <;> rfl
    rw [front, outstanding_cons, given]
    exact Nat.add_comm _ _
  | join id rest front =>
    intro r
    have books := balanced r
    have free : claims r (.joined id) = 0 := rfl
    rw [front, outstanding_cons, free, Nat.zero_add] at books
    dsimp only
    rw [greet_outstanding]
    exact books
  | serve id req rest session front served =>
    intro r
    have books := balanced r
    have free : claims r (.request id req) = 0 := rfl
    rw [front, outstanding_cons, free, Nat.zero_add] at books
    cases serve_cases geometry custody.sound id req session
        (custody.typed _ (by simp [front])) served with
    | ignored read same => exact books
    | sent read same held space inside count =>
      simp only [outstanding, sendPiece, sendTo] at books ⊢
      rw [Table.total_modify_same]
      · exact books
      · intro c _
        rfl
  | file id block rest result taken judged hosts front idle took verdict =>
    have outcome := judge_cases sha1 kernel f.session taken judged id block result hosts took verdict
    obtain ⟨⟨answer, pieces⟩, filed, same⟩ := bind_ok took
    cases same
    exact balanced.file geometry valid front outcome
      (balanced.accepted geometry valid front ⟨pieces, filed⟩)
  | convict host hosts listed => exact balanced
  | expel id c found =>
    refine release_balance valid (requestsOf c.pending) _ _ balanced ?_
    intro r
    have erased := Table.total_erase f.session.peers.conns id c (waits r) found
    dsimp only
    rw [expel_conns id c found]
    simp only [outstanding, waits] at erased ⊢
    omega
  | expire id c cutoff found =>
    refine release_balance valid (takeStale c.pending cutoff).1 _ _ balanced ?_
    intro r
    have changed := Table.total_modify f.session.peers.conns id c (fun c =>
      { c with pending := (takeStale c.pending cutoff).2, snubbed := true }) (waits r) found
    have parts := congrArg (List.count r) (takeStale_split c.pending cutoff)
    rw [List.count_append] at parts
    simp only [outstanding, waits, requestsOf] at changed ⊢
    omega

theorem Balanced.ask (geometry : Geometry t) {f : Flow} {next : Session} (custody : Custody sha1 t f)
    (balanced : Balanced f) (ask : Ask f.session next) : Balanced { f with session := next } := by
  have valid := custody.sound.valid
  cases ask with
  | ask id c choice now req pieces found unchoked slot picked =>
    obtain ⟨opened, pp, b, pick⟩ := pickBlock_some geometry valid _ _ _ _ _ _ picked
    intro r
    have books := balanced r
    have sent := Table.total_modify f.session.peers.conns id c (fun c =>
      { c with pending := c.pending ++ [PendingRequest.mk req now] }.enqueue
        (Wire.Message.bytes (.request req))) (waits r) found
    have grown : waits r ({ c with pending := c.pending ++ [PendingRequest.mk req now] }.enqueue
        (Wire.Message.bytes (.request req))) = waits r c + if req = r then 1 else 0 := by
      simp [waits, requestsOf, PeerConnection.enqueue, List.count_cons]
    dsimp only
    rw [pick.requests valid r]
    simp only [outstanding, sendRequest] at books sent ⊢
    by_cases same : req = r
    · subst same
      have free := pick.was_free valid
      rw [free] at books
      rw [if_pos rfl] at grown
      simp only [Bool.false_eq_true, if_false, decide_true, Bool.true_or, if_true] at books ⊢
      omega
    · rw [if_neg same] at grown
      have other : r ≠ req := fun equal => same equal.symm
      simp only [other, decide_false, Bool.false_or]
      omega
  | decline id c choice pieces picked =>
    have same := pickBlock_none geometry valid _ _ _ _ _ picked
    subst same
    exact balanced

theorem begins_balanced {sys : Sys} (begins : Begins sha1 kernel t sys) : Balanced sys.flow := by
  have fresh := begins_fresh begins
  obtain ⟨-, -, phase, -, -⟩ := begins
  intro r
  have unrequested : sys.session.pieces.isRequested r = false := by
    simp [isRequested, stateAt, fresh.idle]
  simp only [Sys.flow, phase, Phase.queue, fresh.conns, unrequested, Bool.false_eq_true, if_false]
  rfl

theorem reached_balanced {sys : Sys} (reached : Reached sha1 kernel t sys) : Balanced sys.flow := by
  have geometry := reached_geometry reached
  exact (reached_invariant (fun f => Custody sha1 t f ∧ Balanced f)
    (fun _ begins => ⟨begins_custody begins, begins_balanced begins⟩)
    (fun _ _ holds move => ⟨holds.1.quiet geometry move, holds.2.quiet geometry holds.1 move⟩)
    (fun _ _ holds ask => ⟨holds.1.ask geometry ask, holds.2.ask geometry holds.1 ask⟩) reached).2

end Balance

/-- No request is lost or duplicated. Between two rounds a block is requested exactly if its
request is in one pending list, once; and a Piece event is accepted whenever it is dispatched. -/
theorem requests_tracked (sha1 : Bytes → Bytes) (kernel : Kernel) (t : TorrentFile) (sys : Sys)
    (reached : Reached sha1 kernel t sys) :
    (sys.phase = .polling →
      (∀ index pp b, sys.session.pieces.active.find? index = some pp → b < pp.states.length →
        (pp.states[b]? = some .requested ↔
          ∃ id c, sys.session.peers.conns.find? id = some c ∧
            (requestsOf c.pending).count (requestOf t index b) = 1 ∧
            ∀ other d, sys.session.peers.conns.find? other = some d → other ≠ id →
              requestOf t index b ∉ requestsOf d.pending)) ∧
      (∀ id c, sys.session.peers.conns.find? id = some c → ∀ req ∈ requestsOf c.pending,
        ∃ index pp b, sys.session.pieces.active.find? index = some pp ∧
          pp.states[b]? = some .requested ∧ req = requestOf t index b)) ∧
    (∀ id block rest, sys.phase = .dispatching (.piece id block :: rest) →
      (∀ result next, sys.session.pieces.onBlock sha1 block = .ok (result, next) →
        result.status ≠ .rejected) ∧
      (t.pieces.length + 7 < 2 ^ 32 →
        ∃ result next, sys.session.pieces.onBlock sha1 block = .ok (result, next))) := by
  have geometry := reached_geometry reached
  have valid : Valid t sys.session.pieces := (reached_custody reached).sound.valid
  have balanced := reached_balanced reached
  refine ⟨?_, ?_⟩
  · intro idle
    have books : ∀ r, sys.session.peers.conns.total (waits r) =
        if sys.session.pieces.isRequested r = true then 1 else 0 := by
      intro r
      have whole := balanced r
      simp only [Sys.flow, idle, Phase.queue, outstanding, List.map_nil, List.sum_nil,
        Nat.add_zero] at whole
      exact whole
    refine ⟨?_, ?_⟩
    · intro index pp b found inside
      have state : sys.session.pieces.isRequested (requestOf t index b) = true ↔
          pp.states[b]? = some .requested := by
        rw [← valid.torrent, isRequested_requestOf, stateAt_found _ _ _ found, decide_eq_true_iff]
      have single := Table.total_one sys.session.peers.conns (waits (requestOf t index b))
      rw [books, ite_eq_left_iff] at single
      rw [← state]
      simp only [waits, List.count_eq_zero] at single
      rw [← single]
      simp
    · intro id c found req member
      have waiting : 0 < sys.session.peers.conns.total (waits req) :=
        (Table.total_positive _ _).mpr ⟨id, c, found, List.count_pos_iff.mpr member⟩
      have requested : sys.session.pieces.isRequested req = true := by
        by_contra unrequested
        rw [books, if_neg unrequested] at waiting
        omega
      obtain ⟨pp, active, state⟩ := Option.bind_eq_some_iff.mp (of_decide_eq_true requested).2
      exact ⟨_, pp, _, active, state, requested_formed valid req requested⟩
  · intro id block rest here
    have front : sys.flow.queue = .piece id block :: rest := by simp [Sys.flow, here, Phase.queue]
    refine ⟨?_, ?_⟩
    · intro result next filed
      exact balanced.accepted geometry valid front ⟨next, filed⟩
    · intro few
      refine onBlock_returns geometry valid sha1 block (balanced.front id block rest front) ?_
      have count := valid.pieceCount
      omega

/-- A peer that has been asked for the only block. -/
theorem requests_tracked_one_request :
    ∃ sys, Reached spotDigest wholeKernel oneByteWanted sys ∧ sys.phase = .polling ∧
      sys.session.pieces.stateAt 0 0 = some .requested ∧
      ∃ id c, sys.session.peers.conns.find? id = some c ∧
        (requestsOf c.pending).count (requestOf oneByteWanted 0 0) = 1 := by
  have asked : (rehearse spotDigest oneByteWanted (welcome oneByteWanted (ascii "h"))).map (fun sys =>
      (sys.phase, sys.session.pieces.stateAt 0 0)) = some (.polling, some .requested) := by
    decide +kernel
  obtain ⟨sys, ran, shown⟩ := Option.map_eq_some_iff.mp asked
  obtain ⟨idle, state⟩ := Prod.mk.inj shown
  obtain ⟨pp, found, located⟩ := Option.bind_eq_some_iff.mp state
  have reached := rehearse_reached ⟨_, oneByteWanted_accepted⟩ ran
  have exact := (requests_tracked spotDigest wholeKernel oneByteWanted sys reached).1 idle
  obtain ⟨inside, -⟩ := List.getElem?_eq_some_iff.mp located
  obtain ⟨id, c, present, once, -⟩ := (exact.1 0 pp 0 found inside).mp located
  exact ⟨sys, reached, idle, state, id, c, present, once⟩

end TorrentPeer.Session
