import TorrentPeer.Runtime.QueueActs
import TorrentPeer.Runtime.Streams
import TorrentPeer.Runtime.Turns

/-! Requests and Cancels that come in during one round. -/

namespace TorrentPeer.PeerManager

open Wire Transition BigEndian
open PeerConnection (eraseLast)

def named (kind : UInt8) : Bytes → Option BlockRequest
  | [] => none
  | id :: payload =>
    if id = kind ∧ payload.length = 12 then
      some ⟨readBe32 payload, readBe32 (payload.drop 4), readBe32 (payload.drop 8)⟩
    else none

/-- How one more message of a peer changes the number of its waiting requests for a block. -/
def tally (req : BlockRequest) (count : Nat) (msg : Bytes) : Nat :=
  if named msgRequest msg = some req then count + 1
  else if named msgCancel msg = some req then count - 1
  else count

def messagesOf (p : Nat) (calls : List Call) : List Bytes :=
  (calls.filter (fun x => decide (x.id = p))).map Call.msg

def waitingAfter (req : BlockRequest) (messages : List Bytes) : Nat := messages.foldl (tally req) 0

def Call.pushed (x : Call) : List PeerEvent := (x.conn.handle x.id x.frequency [] x.msg).out

section Messages

theorem eraseLast_split {event : PeerEvent} {events : List PeerEvent} (member : event ∈ events) :
    ∃ before after, events = before ++ event :: after ∧ event ∉ after ∧
      eraseLast (fun other => decide (other = event)) events = before ++ after := by
  have present : event ∈ events.reverse := List.mem_reverse.mpr member
  obtain ⟨found, late, early, none_later, same, split, erased⟩ :=
    List.exists_of_eraseP (p := fun other => decide (other = event)) present (decide_eq_true rfl)
  have this := of_decide_eq_true same
  subst this
  refine ⟨early.reverse, late.reverse, ?_, ?_, ?_⟩
  · rw [← List.reverse_reverse events, split]
    simp
  · intro again
    exact none_later _ (List.mem_reverse.mp again) (decide_eq_true rfl)
  · rw [eraseLast, erased, List.reverse_append]

theorem eraseLast_count {event : PeerEvent} {events : List PeerEvent} (member : event ∈ events) (other : PeerEvent) :
    (eraseLast (fun one => decide (one = event)) events).count other =
      if event = other then events.count other - 1 else events.count other := by
  obtain ⟨before, after, split, -, erased⟩ := eraseLast_split member
  rw [erased, split, List.count_append, List.count_append, List.count_cons]
  by_cases same : event = other
  · rw [if_pos same, if_pos (beq_iff_eq.mpr same)]
    omega
  · rw [if_neg same, if_neg (fun equal => same (beq_iff_eq.mp equal)), Nat.add_zero]

variable (c : PeerConnection) (id : Nat) (frequency : List Nat)

theorem onHave_out (out : List PeerEvent) (payload : Bytes) : (c.onHave frequency out payload).out = out := by
  unfold PeerConnection.onHave
  dsimp only
  split
  · rfl
  split
  · rfl
  split
  · rfl
  split <;> rfl

theorem onBitfield_out (out : List PeerEvent) (payload : Bytes) : (c.onBitfield frequency out payload).out = out := by
  unfold PeerConnection.onBitfield
  dsimp only
  split
  · rfl
  split <;> rfl

/-- All that a message can do to the events of the round, whichever these are. -/
inductive Spoken (msg : Bytes) : Prop
  | plain (extra : List PeerEvent) (silent : ∀ q req, .request q req ∉ extra)
      (adds : ∀ out, (c.handle id frequency out msg).out = out ++ extra)
      (uncounted : ∀ out, c.amChoking = false → (c.handle id frequency out msg).thrown = none →
        named msgRequest msg = none ∧ named msgCancel msg = none)
  | request (req : BlockRequest) (asks : named msgRequest msg = some req) (other : named msgCancel msg = none)
      (adds : ∀ out, (c.handle id frequency out msg).out = out ++ [.request id req])
  | cancel (req : BlockRequest) (other : named msgRequest msg = none) (asks : named msgCancel msg = some req)
      (takes : ∀ out, .request id req ∈ out → c.handle id frequency out msg =
        ⟨c, frequency, eraseLast (fun event => decide (event = .request id req)) out, none⟩)
      (unqueues : ∀ out, .request id req ∉ out → c.handle id frequency out msg =
        ⟨(c.removeQueuedPiece req.pieceIndex req.offset req.length).1, frequency, out, none⟩)

theorem named_other {kind other : UInt8} (different : other ≠ kind) (payload : Bytes) :
    named kind (other :: payload) = none := by
  rw [named, if_neg (fun same => different same.1)]

theorem named_whole (kind : UInt8) (payload : Bytes) (size : payload.length = 12) :
    named kind (kind :: payload) =
      some ⟨readBe32 payload, readBe32 (payload.drop 4), readBe32 (payload.drop 8)⟩ := by
  rw [named, if_pos ⟨rfl, size⟩]

theorem Spoken.refused {c : PeerConnection} {id : Nat} {frequency : List Nat} {msg : Bytes} (what : String)
    (same : ∀ out, c.handle id frequency out msg = ⟨c, frequency, out, PeerConnection.protocolError what⟩) :
    Spoken c id frequency msg := by
  refine .plain [] (fun q req => List.not_mem_nil) (fun out => ?_) (fun out unchoked fine => ?_)
  · rw [same, List.append_nil]
  · rw [same] at fine
    cases fine

theorem spoken_other (kind : UInt8) (payload : Bytes) (request : kind ≠ msgRequest) (cancel : kind ≠ msgCancel) :
    Spoken c id frequency (kind :: payload) := by
  have added : ∃ extra, (∀ q req, PeerEvent.request q req ∉ extra) ∧
      ∀ out, (c.handle id frequency out (kind :: payload)).out = out ++ extra := by
    have nothing : ∀ out : List PeerEvent, out = out ++ [] := fun out => (List.append_nil out).symm
    have silent : ∀ q req, PeerEvent.request q req ∉ ([] : List PeerEvent) := fun q req => List.not_mem_nil
    simp only [PeerConnection.handle, if_neg request, if_neg cancel]
    split
    · exact ⟨[.choke id (requestsOf c.pending)], by simp, fun out => rfl⟩
    split
    · exact ⟨[.unchoke id], by simp, fun out => rfl⟩
    split
    · exact ⟨[], silent, nothing⟩
    split
    · exact ⟨[], silent, nothing⟩
    split
    · exact ⟨[], silent, fun out => (onHave_out c frequency out payload).trans (nothing out)⟩
    split
    · exact ⟨[], silent, fun out => (onBitfield_out c frequency out payload).trans (nothing out)⟩
    split
    · unfold PeerConnection.onPiece
      dsimp only
      split
      · exact ⟨[], silent, nothing⟩
      split
      · exact ⟨[], silent, nothing⟩
      · exact ⟨[.piece id _], by simp, fun out => rfl⟩
    · exact ⟨[], silent, nothing⟩
  obtain ⟨extra, silent, adds⟩ := added
  exact .plain extra silent adds (fun out unchoked fine => ⟨named_other request payload, named_other cancel payload⟩)

theorem handle_onRequest (out : List PeerEvent) (payload : Bytes) :
    c.handle id frequency out (msgRequest :: payload) = c.onRequest frequency out payload id := by
  have kinds : msgRequest ≠ msgChoke ∧ msgRequest ≠ msgUnchoke ∧ msgRequest ≠ msgInterested ∧
      msgRequest ≠ msgNotInterested ∧ msgRequest ≠ msgHave ∧ msgRequest ≠ msgBitfield := by decide
  simp only [PeerConnection.handle, kinds, if_false, if_true]

theorem handle_onCancel (out : List PeerEvent) (payload : Bytes) :
    c.handle id frequency out (msgCancel :: payload) = c.onCancel frequency out payload id := by
  have kinds : msgCancel ≠ msgChoke ∧ msgCancel ≠ msgUnchoke ∧ msgCancel ≠ msgInterested ∧
      msgCancel ≠ msgNotInterested ∧ msgCancel ≠ msgHave ∧ msgCancel ≠ msgBitfield ∧ msgCancel ≠ msgRequest ∧
      msgCancel ≠ msgPiece := by decide
  simp only [PeerConnection.handle, kinds, if_false, if_true]

theorem spoken_request (payload : Bytes) : Spoken c id frequency (msgRequest :: payload) := by
  by_cases choking : c.amChoking = true
  · refine .plain [] (fun q req => List.not_mem_nil) (fun out => ?_) (fun out unchoked => ?_)
    · rw [handle_onRequest, PeerConnection.onRequest, if_pos choking, List.append_nil]
    · rw [choking] at unchoked
      cases unchoked
  by_cases size : payload.length = 12
  · by_cases large : kBlockSize < readBe32 (payload.drop 8)
    · refine .refused "request too large" (fun out => ?_)
      rw [handle_onRequest, PeerConnection.onRequest, if_neg choking, if_neg (not_not.mpr size)]
      exact if_pos large
    · refine .request _ (named_whole _ payload size) (named_other (by decide) payload) (fun out => ?_)
      have accepted : c.onRequest frequency out payload id = ⟨c, frequency, out ++ [.request id
          ⟨readBe32 payload, readBe32 (payload.drop 4), readBe32 (payload.drop 8)⟩], none⟩ := by
        rw [PeerConnection.onRequest, if_neg choking, if_neg (not_not.mpr size)]
        exact if_neg large
      rw [handle_onRequest, accepted]
  · refine .refused "bad request" (fun out => ?_)
    rw [handle_onRequest, PeerConnection.onRequest, if_neg choking, if_pos size]

theorem spoken_cancel (payload : Bytes) : Spoken c id frequency (msgCancel :: payload) := by
  by_cases size : payload.length = 12
  · by_cases large : kBlockSize < readBe32 (payload.drop 8)
    · refine .refused "cancel too large" (fun out => ?_)
      rw [handle_onCancel, PeerConnection.onCancel, if_neg (not_not.mpr size)]
      exact if_pos large
    · refine .cancel _ (named_other (by decide) payload) (named_whole _ payload size) ?_ ?_
      · intro out waits
        rw [handle_onCancel, PeerConnection.onCancel, if_neg (not_not.mpr size)]
        dsimp only
        rw [if_neg large, if_pos (List.any_eq_true.mpr ⟨_, waits, decide_eq_true rfl⟩)]
      · intro out absent
        rw [handle_onCancel, PeerConnection.onCancel, if_neg (not_not.mpr size)]
        dsimp only
        rw [if_neg large, if_neg]
        intro waits
        obtain ⟨event, member, same⟩ := List.any_eq_true.mp waits
        rw [of_decide_eq_true same] at member
        exact absent member
  · refine .refused "bad cancel" (fun out => ?_)
    rw [handle_onCancel, PeerConnection.onCancel, if_pos size]

theorem handle_spoken (msg : Bytes) : Spoken c id frequency msg := by
  cases msg with
  | nil =>
    refine .plain [] (fun q req => List.not_mem_nil) (fun out => ?_) (fun out unchoked fine => ⟨rfl, rfl⟩)
    exact (List.append_nil out).symm
  | cons kind payload =>
    by_cases request : kind = msgRequest
    · rw [request]
      exact spoken_request c id frequency payload
    · by_cases cancel : kind = msgCancel
      · rw [cancel]
        exact spoken_cancel c id frequency payload
      · exact spoken_other c id frequency kind payload request cancel

theorem handle_tally (out : List PeerEvent) (msg : Bytes) (unchoked : c.amChoking = false)
    (fine : (c.handle id frequency out msg).thrown = none) (req : BlockRequest) :
    (c.handle id frequency out msg).out.count (.request id req) =
      tally req (out.count (.request id req)) msg := by
  cases handle_spoken c id frequency msg with
  | plain extra silent adds uncounted =>
    obtain ⟨request, cancel⟩ := uncounted out unchoked fine
    rw [adds, List.count_append, List.count_eq_zero_of_not_mem (silent id req), tally, request, cancel]
    rfl
  | request asked asks other adds =>
    rw [adds, List.count_append, List.count_singleton, tally, asks, other]
    by_cases same : asked = req
    · simp [same]
    · simp [same]
  | cancel asked other asks takes unqueues =>
    rw [tally, other, asks, if_neg (Option.some_ne_none req).symm]
    by_cases waits : .request id asked ∈ out
    · rw [takes out waits, eraseLast_count waits]
      by_cases same : asked = req
      · simp [same]
      · simp [same]
    · rw [unqueues out waits]
      by_cases same : asked = req
      · rw [if_pos (congrArg some same), List.count_eq_zero_of_not_mem (same ▸ waits)]
      · rw [if_neg (fun equal => same (Option.some.inj equal))]

theorem handle_others (out : List PeerEvent) (msg : Bytes) {p : Nat} (different : p ≠ id) (req : BlockRequest) :
    (c.handle id frequency out msg).out.count (.request p req) = out.count (.request p req) := by
  have distinct : ∀ asked, PeerEvent.request id asked ≠ .request p req := by
    intro asked same
    injection same with owner
    exact different owner.symm
  cases handle_spoken c id frequency msg with
  | plain extra silent adds uncounted =>
    rw [adds, List.count_append, List.count_eq_zero_of_not_mem (silent p req), Nat.add_zero]
  | request asked asks other adds =>
    rw [adds, List.count_append, List.count_singleton, if_neg (by simpa using distinct asked), Nat.add_zero]
  | cancel asked other asks takes unqueues =>
    by_cases waits : .request id asked ∈ out
    · rw [takes out waits, eraseLast_count waits, if_neg (distinct asked)]
    · rw [unqueues out waits]

theorem handle_kept (out : List PeerEvent) (msg : Bytes) (kept : PeerEvent → Bool)
    (spared : ∀ req, named msgCancel msg = some req → kept (.request id req) = false) :
    (c.handle id frequency out msg).out.filter kept =
      out.filter kept ++ (c.handle id frequency [] msg).out.filter kept := by
  cases handle_spoken c id frequency msg with
  | plain extra silent adds uncounted => rw [adds, adds, List.nil_append, List.filter_append]
  | request asked asks other adds => rw [adds, adds, List.nil_append, List.filter_append]
  | cancel asked other asks takes unqueues =>
    rw [unqueues [] List.not_mem_nil, List.filter_nil, List.append_nil]
    by_cases waits : .request id asked ∈ out
    · obtain ⟨before, after, split, -, erased⟩ := eraseLast_split waits
      rw [takes out waits, erased, split, List.filter_append, List.filter_append,
        List.filter_cons_of_neg (by rw [spared asked asks]; decide)]
    · rw [unqueues out waits]

theorem handle_sublist (out : List PeerEvent) (msg : Bytes) :
    (c.handle id frequency out msg).out.Sublist (out ++ (c.handle id frequency [] msg).out) := by
  cases handle_spoken c id frequency msg with
  | plain extra silent adds uncounted =>
    rw [adds, adds, List.nil_append]
  | request asked asks other adds =>
    rw [adds, adds, List.nil_append]
  | cancel asked other asks takes unqueues =>
    rw [unqueues [] List.not_mem_nil, List.append_nil]
    by_cases waits : .request id asked ∈ out
    · obtain ⟨before, after, split, -, erased⟩ := eraseLast_split waits
      rw [takes out waits, erased, split]
      exact (List.Sublist.refl before).append (List.sublist_cons_self _ after)
    · rw [unqueues out waits]

end Messages

def Unqueues (req : BlockRequest) (c after : PeerConnection) : Prop :=
  ∃ before m rest, c.writeBuffer = before ++ m :: rest ∧
    PeerConnection.queuedPiece req.pieceIndex req.offset req.length m = true ∧ (0 < c.cursor → before ≠ []) ∧
    after = { c with queuedBytes := c.queuedBytes - m.length, writeBuffer := before ++ rest }

/-- What a Cancel does, by the number of the peer's requests for the block that wait in the events. -/
structure Cancels (x : Call) (req : BlockRequest) (count : Nat) : Prop where
  counted : x.out.count (.request x.id req) = count
  waiting : 0 < count → x.result.conn = x.conn ∧
    ∃ before after, x.out = before ++ .request x.id req :: after ∧ .request x.id req ∉ after ∧
      x.result.out = before ++ after
  queued : count = 0 → x.result.out = x.out ∧ (x.result.conn = x.conn ∨ Unqueues req x.conn x.result.conn)

theorem call_cancels {x : Call} {req : BlockRequest} (unchoked : x.conn.amChoking = false)
    (fine : x.result.thrown = none)
    (asks : named msgCancel x.msg = some req) : Cancels x req (x.out.count (.request x.id req)) := by
  cases handle_spoken x.conn x.id x.frequency x.msg with
  | plain extra silent adds uncounted =>
    rw [(uncounted x.out unchoked fine).2] at asks
    cases asks
  | request asked requested other adds =>
    rw [asks] at other
    cases other
  | cancel asked other cancels takes unqueues =>
    rw [asks] at cancels
    cases cancels
    refine ⟨rfl, ?_, ?_⟩
    · intro positive
      have waits := List.count_pos_iff.mp positive
      obtain ⟨before, after, split, last, erased⟩ := eraseLast_split waits
      have result : x.result = _ := takes x.out waits
      rw [result]
      exact ⟨rfl, before, after, split, last, erased⟩
    · intro zero
      have result : x.result = _ := unqueues x.out (List.count_eq_zero.mp zero)
      rw [result]
      exact ⟨rfl, PeerConnection.removeQueuedPiece_cases x.conn _ _ _⟩

section Batches

variable {w last : World} {calls : List Call}

theorem Hears.at_call {before after : List Call} {x : Call} (hears : Hears w (before ++ x :: after) last) :
    ∃ middle, Hears w before middle ∧ nextCall middle.pm middle.out x.id = some x := by
  generalize all_eq : before ++ x :: after = all at hears
  induction hears generalizing before with
  | done w => exact absurd all_eq (by simp)
  | moved w next last a calls reading silent moves more ih =>
    obtain ⟨middle, first, here⟩ := ih all_eq
    exact ⟨middle, .moved w next middle a before reading silent moves first, here⟩
  | heard w last id y calls next more ih =>
    have owner : y.id = id := by
      obtain ⟨c, msg, rest, -, -, rfl⟩ := nextCall_some next
      rfl
    cases before with
    | nil =>
      obtain ⟨rfl, -⟩ := List.cons.inj all_eq
      exact ⟨w, .done w, owner ▸ next⟩
    | cons first others =>
      obtain ⟨rfl, rest⟩ := List.cons.inj all_eq
      obtain ⟨middle, earlier, here⟩ := ih rest
      exact ⟨middle, .heard w middle id first others next earlier, here⟩

def Unchoked (p : Nat) (pm : PeerManager) : Prop := ∃ c, pm.conns.find? p = some c ∧ c.amChoking = false

theorem effect_choking {c : PeerConnection} {id : Nat} {frequency : List Nat} {out : List PeerEvent} {msg : Bytes}
    {handled : Handled} (effect : PeerConnection.Effect c id frequency out msg handled) :
    handled.conn.amChoking = c.amChoking := by
  cases effect with
  | cancelled index offset length =>
    obtain ⟨_, _, same⟩ := c.removeQueuedPiece_shape index offset length
    rw [same]
  | _ => rfl

theorem drain_choking (c : PeerConnection) (result : Send) (now : Time) :
    (c.drain result now).1.amChoking = c.amChoking := by
  obtain ⟨_, _, _, _, _, same⟩ := c.drain_shape result now
  rw [same]

theorem touches_choking {c after : PeerConnection} (touch : Touches c after) : after.amChoking = c.amChoking := by
  cases touch with
  | drain result now => exact drain_choking c result now
  | receive chunk now => rfl
  | message rest peer frequency out msg handled extracted effect =>
    have kept := effect_choking effect
    exact kept
  | ping empty => rfl

theorem act_unchoked {next : World} {a : Act} {p : Nat} (own : a.Own) (keeps : Keeps p a)
    (moves : act w a = some next)
    (unchoked : Unchoked p w.pm) : Unchoked p next.pm := by
  obtain ⟨c, found, flag⟩ := unchoked
  obtain ⟨after, present, -⟩ := act_queues keeps found moves
  refine ⟨after, present, ?_⟩
  rcases act_connection own moves present with ⟨old, here, change⟩ | ⟨absent, -⟩
  · rw [found] at here
    cases here
    rcases change with same | ⟨-, touch⟩ | ⟨-, same⟩
    · rw [same]
      exact flag
    · rw [touches_choking touch]
      exact flag
    · rw [same]
      exact flag
  · rw [absent] at found
    cases found

theorem Act.Reading.keeps {a : Act} (reading : a.Reading) (p : Nat) : Keeps p a := by
  cases a with
  | drop other => cases reading
  | send other message now => cases reading
  | _ => trivial

theorem Act.Reading.own {a : Act} (reading : a.Reading) : a.Own := by
  cases a with
  | send other message now => cases reading
  | ban host => cases reading
  | collect => cases reading
  | _ => trivial

theorem call_unchoked {id p : Nat} {x : Call} (next : nextCall w.pm w.out id = some x) (unchoked : Unchoked p w.pm) :
    Unchoked p (x.settled w.pm) := by
  have reading : (Act.message id).Reading := trivial
  exact act_unchoked reading.own (reading.keeps p) (act_call next) unchoked

theorem nextCall_unchoked {pm : PeerManager} {out : List PeerEvent} {id : Nat} {x : Call}
    (next : nextCall pm out id = some x) (unchoked : Unchoked x.id pm) : x.conn.amChoking = false := by
  obtain ⟨c, msg, rest, found, extracted, rfl⟩ := nextCall_some next
  obtain ⟨d, present, flag⟩ := unchoked
  rw [found] at present
  cases present
  exact flag

theorem nextCall_out {pm : PeerManager} {out : List PeerEvent} {id : Nat} {x : Call}
    (next : nextCall pm out id = some x) : x.out = out := by
  obtain ⟨c, msg, rest, found, extracted, rfl⟩ := nextCall_some next
  rfl

theorem moved_out {next : World} {a : Act} (reading : a.Reading) (silent : ∀ id, a ≠ .message id)
    (moves : act w a = some next) : next.out = w.out := by
  cases a with
  | drain id result now =>
    cases moves
    rfl
  | receive id chunk now =>
    cases moves
    rfl
  | message id => exact absurd rfl (silent id)
  | _ => cases reading

theorem Hears.unchoked {p : Nat} (hears : Hears w calls last) (unchoked : Unchoked p w.pm) : Unchoked p last.pm := by
  induction hears with
  | done w => exact unchoked
  | moved w next last a calls reading silent moves more ih =>
    exact ih (act_unchoked reading.own (reading.keeps p) moves unchoked)
  | heard w last id x calls next more ih => exact ih (call_unchoked next unchoked)

theorem messagesOf_own {p : Nat} {x : Call} (here : x.id = p) :
    messagesOf p (x :: calls) = x.msg :: messagesOf p calls := by
  simp [messagesOf, here]

theorem messagesOf_other {p : Nat} {x : Call} (elsewhere : x.id ≠ p) :
    messagesOf p (x :: calls) = messagesOf p calls := by
  simp [messagesOf, elsewhere]

/-- The waiting requests of a peer over a whole round, whatever the others say. -/
theorem Hears.tallied {p : Nat} (hears : Hears w calls last) (unchoked : Unchoked p w.pm)
    (fine : ∀ x ∈ calls, x.id = p → x.result.thrown = none) (req : BlockRequest) :
    last.out.count (.request p req) = (messagesOf p calls).foldl (tally req) (w.out.count (.request p req)) := by
  induction hears with
  | done w => rfl
  | moved w next last a calls reading silent moves more ih =>
    rw [ih (act_unchoked reading.own (reading.keeps p) moves unchoked) fine, moved_out reading silent moves]
  | heard w last id x calls next more ih =>
    have later := ih (call_unchoked next unchoked) (fun y member => fine y (List.mem_cons_of_mem _ member))
    have events := nextCall_out next
    rw [later]
    by_cases here : x.id = p
    · rw [messagesOf_own here, List.foldl_cons, ← here, ← events]
      have flag := nextCall_unchoked next (here ▸ unchoked)
      have step := handle_tally x.conn x.id x.frequency x.out x.msg flag (fine x (List.mem_cons_self ..) here) req
      rw [← step]
      rfl
    · rw [messagesOf_other here, ← events]
      have step := handle_others x.conn x.id x.frequency x.out x.msg (Ne.symm here) req
      rw [← step]
      rfl

theorem Hears.kept (hears : Hears w calls last) (kept : PeerEvent → Bool)
    (spared : ∀ x ∈ calls, ∀ req, named msgCancel x.msg = some req → kept (.request x.id req) = false) :
    last.out.filter kept = w.out.filter kept ++ (calls.flatMap Call.pushed).filter kept := by
  induction hears with
  | done w => exact (List.append_nil _).symm
  | moved w next last a calls reading silent moves more ih => rw [ih spared, moved_out reading silent moves]
  | heard w last id x calls next more ih =>
    have step := handle_kept x.conn x.id x.frequency x.out x.msg kept (spared x (List.mem_cons_self ..))
    rw [ih (fun y member => spared y (List.mem_cons_of_mem _ member)), List.flatMap_cons, List.filter_append,
      ← List.append_assoc, ← nextCall_out next]
    exact congrArg (· ++ _) step

theorem Hears.sublist (hears : Hears w calls last) : last.out.Sublist (w.out ++ calls.flatMap Call.pushed) := by
  induction hears with
  | done w => exact List.sublist_append_left _ _
  | moved w next last a calls reading silent moves more ih =>
    rw [← moved_out reading silent moves]
    exact ih
  | heard w last id x calls next more ih =>
    have step := handle_sublist x.conn x.id x.frequency x.out x.msg
    rw [List.flatMap_cons, ← List.append_assoc, ← nextCall_out next]
    exact ih.trans (step.append (List.Sublist.refl _))

theorem modify_handled {conns : Table Nat PeerConnection} {id p : Nat} {c : PeerConnection}
    {change : PeerConnection → PeerConnection} (found : conns.find? p = some c)
    (same : (change c).handled = c.handled) :
    ∃ after, (conns.modify id change).find? p = some after ∧ after.handled = c.handled := by
  rw [Table.find_modify, found]
  by_cases here : p = id
  · exact ⟨change c, by rw [if_pos here]; rfl, same⟩
  · exact ⟨c, by rw [if_neg here], rfl⟩

theorem moved_handled {next : World} {a : Act} {p : Nat} {c : PeerConnection} (reading : a.Reading)
    (silent : ∀ id, a ≠ .message id) (moves : act w a = some next) (found : w.pm.conns.find? p = some c) :
    ∃ after, next.pm.conns.find? p = some after ∧ after.handled = c.handled := by
  cases a with
  | drain id result now =>
    cases moves
    exact modify_handled found (drain_reading c result now).handled
  | receive id chunk now =>
    cases moves
    exact modify_handled found rfl
  | message id => exact absurd rfl (silent id)
  | _ => cases reading

theorem call_handled {id p : Nat} {x : Call} {c : PeerConnection} (next : nextCall w.pm w.out id = some x)
    (found : w.pm.conns.find? p = some c) :
    ∃ after, (x.settled w.pm).conns.find? p = some after ∧
      after.handled ++ messagesOf p calls = c.handled ++ messagesOf p (x :: calls) := by
  obtain ⟨d, msg, rest, present, extracted, rfl⟩ := nextCall_some next
  rw [Call.settled, Table.find_modify]
  by_cases here : p = id
  · subst here
    rw [found] at present
    cases present
    refine ⟨_, by rw [if_pos rfl, found]; rfl, ?_⟩
    have kept := (effect_reading (PeerConnection.handle_effect
      { c with readBuffer := rest, handled := c.handled ++ [msg] } p w.pm.pieceFrequency w.out msg)).handled
    rw [Call.result, kept, messagesOf_own]
    · exact List.append_assoc _ _ _
    · rfl
  · exact ⟨c, by rw [if_neg here, found], by rw [messagesOf_other (Ne.symm here)]⟩

theorem Hears.handled {p : Nat} {c : PeerConnection} (hears : Hears w calls last)
    (found : w.pm.conns.find? p = some c) :
    ∃ after, last.pm.conns.find? p = some after ∧ after.handled = c.handled ++ messagesOf p calls := by
  induction hears generalizing c with
  | done w => exact ⟨c, found, (List.append_nil _).symm⟩
  | moved w next last a calls reading silent moves more ih =>
    obtain ⟨middle, present, same⟩ := moved_handled reading silent moves found
    rw [← same]
    exact ih present
  | heard w last id x calls next more ih =>
    obtain ⟨middle, present, same⟩ := @call_handled w calls id p x c next found
    rw [← same]
    exact ih present

end Batches

section Rounds

variable (env : Env) (pfds : List PollFd) (pm : PeerManager)

/-- The events of one `handle_events` if no Cancel came in. -/
def issued : List PeerEvent :=
  let (next, _, toDrop) := servePass env pfds pm
  (admitted env pfds pm).out ++ (roundCalls env pfds pm).flatMap Call.pushed ++
    (next.dropAll [] (toDrop ++ idlePeers next env.order (env.clock .sweep))).2

theorem servePass_hears :
    Hears (admitted env pfds pm) (roundCalls env pfds pm)
      ⟨(servePass env pfds pm).1, (servePass env pfds pm).2.1⟩ := by
  rw [servePass_admitted]
  exact hears_serveLoop env pfds _ _ _ _

theorem admitted_silent (q : Nat) (req : BlockRequest) : .request q req ∉ (admitted env pfds pm).out := by
  obtain ⟨known, admission⟩ := admitted_turns env pfds pm
  rw [admission.out]
  simp

theorem admitted_keeps {pm : PeerManager} (room : Room pm) {p : Nat} {c : PeerConnection}
    (found : pm.conns.find? p = some c) :
    ∃ after, (admitted env pfds pm).pm.conns.find? p = some after ∧ after.amChoking = c.amChoking ∧
      after.handled = c.handled := by
  have step : ∀ state next a, Act.Joins env pm a →
      (∃ d, state.pm.conns.find? p = some d ∧ d.amChoking = c.amChoking ∧ d.handled = c.handled) →
      act state a = some next →
      ∃ d, next.pm.conns.find? p = some d ∧ d.amChoking = c.amChoking ∧ d.handled = c.handled := by
    rintro state next a ⟨⟨own, -⟩, waiting, -⟩ ⟨d, present, flag, heard⟩ moved
    have keeps : Keeps p a := by
      cases a with
      | drop other => exact absurd trivial waiting
      | send other message now => cases own
      | _ => trivial
    obtain ⟨after, located, -⟩ := act_queues keeps present moved
    refine ⟨after, located, ?_⟩
    rcases act_connection own moved located with ⟨old, here, change⟩ | ⟨absent, -⟩
    · rw [present] at here
      cases here
      rcases change with same | ⟨serving, -⟩ | ⟨-, same⟩
      · rw [same]
        exact ⟨flag, heard⟩
      · exact absurd serving waiting
      · rw [same]
        exact ⟨flag, heard⟩
    · rw [absent] at present
      cases present
  exact Reaches.preserves step (admitted_joins env pfds pm room).1 ⟨c, found, rfl, rfl⟩

theorem dropAll_silent (ids : List Nat) (pm : PeerManager) (q : Nat) (req : BlockRequest) :
    .request q req ∉ (pm.dropAll [] ids).2 := by
  induction ids generalizing pm with
  | nil => exact List.not_mem_nil
  | cons id ids ih =>
    rw [dropAll, drop]
    cases pm.conns.find? id with
    | none => exact ih pm
    | some c =>
      dsimp only
      rw [(dropAll_out _ _ ids).2]
      intro member
      rcases List.mem_append.mp member with first | later
      · simp at first
      · exact ih _ later

theorem handleEvents_out : ∃ drops, (∀ q req, .request q req ∉ drops) ∧
    (handleEvents env pfds pm).2 = (servePass env pfds pm).2.1 ++ drops ∧
    issued env pfds pm = (admitted env pfds pm).out ++ (roundCalls env pfds pm).flatMap Call.pushed ++ drops := by
  refine ⟨_, dropAll_silent _ _, ?_, rfl⟩
  exact (dropAll_out _ _ _).2

end Rounds

/-- One `handle_events` and a peer that we have unchoked and that breaks no rule. Its waiting requests
for a block are counted by its own messages alone; a Cancel takes back the last of them, and only if
there is none does it look into the queue; every event that no Cancel names stays, in order. -/
theorem cancels_own_requests (pm : PeerManager) (used : Used pm) (env : Env) (pfds : List PollFd) (p : Nat)
    (c : PeerConnection) (found : pm.conns.find? p = some c) (unchoked : c.amChoking = false)
    (fine : ∀ x ∈ roundCalls env pfds pm, x.id = p → x.result.thrown = none) :
    (∃ after, (servePass env pfds pm).1.conns.find? p = some after ∧
      after.handled = c.handled ++ messagesOf p (roundCalls env pfds pm)) ∧
    (∀ req, (handleEvents env pfds pm).2.count (.request p req) =
      waitingAfter req (messagesOf p (roundCalls env pfds pm))) ∧
    (∀ before x after req, roundCalls env pfds pm = before ++ x :: after → x.id = p →
      named msgCancel x.msg = some req → Cancels x req (waitingAfter req (messagesOf p before))) ∧
    (handleEvents env pfds pm).2.Sublist (issued env pfds pm) ∧
    ∀ kept : PeerEvent → Bool, (∀ x ∈ roundCalls env pfds pm, ∀ req, named msgCancel x.msg = some req →
        kept (.request x.id req) = false) →
      (handleEvents env pfds pm).2.filter kept = (issued env pfds pm).filter kept := by
  obtain ⟨d, present, flag, same⟩ := admitted_keeps env pfds (used_room used) found
  have hears := servePass_hears env pfds pm
  have open_ : Unchoked p (admitted env pfds pm).pm := ⟨d, present, flag.trans unchoked⟩
  have empty : ∀ req, (admitted env pfds pm).out.count (.request p req) = 0 :=
    fun req => List.count_eq_zero_of_not_mem (admitted_silent env pfds pm p req)
  obtain ⟨drops, silent, returned, all⟩ := handleEvents_out env pfds pm
  refine ⟨?_, ?_, ?_, ?_, ?_⟩
  · rw [← same]
    exact hears.handled present
  · intro req
    rw [returned, List.count_append, List.count_eq_zero_of_not_mem (silent p req), Nat.add_zero,
      hears.tallied open_ fine req, empty, waitingAfter]
  · intro before x after req split here asks
    rw [split] at hears fine
    obtain ⟨middle, earlier, next⟩ := hears.at_call
    have quiet : ∀ y ∈ before, y.id = p → y.result.thrown = none :=
      fun y member => fine y (List.mem_append_left _ member)
    have sound := fine x (List.mem_append_right _ (List.mem_cons_self ..)) here
    have free := nextCall_unchoked next (here ▸ earlier.unchoked open_)
    have count := earlier.tallied open_ quiet req
    rw [empty, ← nextCall_out next, ← here] at count
    rw [waitingAfter, ← here, ← count]
    exact call_cancels free sound asks
  · rw [returned, all]
    exact hears.sublist.append (List.Sublist.refl _)
  · intro kept spared
    rw [returned, all, List.filter_append, List.filter_append, List.filter_append]
    rw [hears.kept kept spared]

section Example

open Session

def secondThoughts : Env :=
  { quietEnv with recv := fun _ => .data (buildRequest ⟨0, 0, 1⟩ ++ buildRequest ⟨0, 0, 1⟩ ++
    buildMessage msgCancel (be32 0 ++ be32 0 ++ be32 1) ++ buildRequest ⟨0, 1, 1⟩) }

def secondFds : List PollFd := [⟨3, pollIn, 0⟩, ⟨5, pollIn, pollIn⟩]

def unchokedArrival : Option PeerManager :=
  oneArrival.bind (fun pm => run (fun pm op => some (pm.perform op).1) pm [.send 0 .unchoke 0, .buildFds []])

end Example

theorem cancels_own_requests_twice_asked :
    ∃ pm, Used pm ∧ ((handleEvents secondThoughts secondFds pm).2.count (.request 0 ⟨0, 0, 1⟩) = 1 ∧
      (handleEvents secondThoughts secondFds pm).2.count (.request 0 ⟨0, 1, 1⟩) = 1) := by
  have seen : unchokedArrival.bind (fun pm => (pm.conns.find? 0).map (fun c =>
      (c.amChoking, (roundCalls secondThoughts secondFds pm).all (fun x => x.result.thrown.isNone),
        messagesOf 0 (roundCalls secondThoughts secondFds pm)))) =
      some (false, true, [6 :: (be32 0 ++ be32 0 ++ be32 1), 6 :: (be32 0 ++ be32 0 ++ be32 1),
        8 :: (be32 0 ++ be32 0 ++ be32 1), 6 :: (be32 0 ++ be32 1 ++ be32 1)]) := by
    decide +kernel
  obtain ⟨pm, ran, shown⟩ := Option.bind_eq_some_iff.mp seen
  obtain ⟨c, found, values⟩ := Option.map_eq_some_iff.mp shown
  obtain ⟨unchoked, rest⟩ := Prod.mk.inj values
  obtain ⟨quiet, said⟩ := Prod.mk.inj rest
  obtain ⟨first, arrived, moves⟩ := Option.bind_eq_some_iff.mp ran
  have used : Used pm := (oneArrival_used arrived).run moves
  have fine : ∀ x ∈ roundCalls secondThoughts secondFds pm, x.id = 0 → x.result.thrown = none :=
    fun x member _ => Option.isNone_iff_eq_none.mp (List.all_eq_true.mp quiet x member)
  have counted := (cancels_own_requests pm used secondThoughts secondFds 0 c found unchoked fine).2.1
  rw [said] at counted
  refine ⟨pm, used, ?_, ?_⟩
  · rw [counted]
    decide
  · rw [counted]
    decide

end TorrentPeer.PeerManager
