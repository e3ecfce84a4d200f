import TorrentPeer.Runtime.Cancels
import TorrentPeer.Runtime.Peering

/-! Blocks go only to peers that asked for them, and no block goes out more often than it was asked for. -/

namespace TorrentPeer.PeerManager

open Wire BigEndian Transition

def carried : Bytes → Option BlockRequest
  | [] => none
  | id :: payload =>
    if id = msgPiece ∧ 8 ≤ payload.length then
      some ⟨readBe32 payload, readBe32 (payload.drop 4), payload.length - 8⟩
    else none

def blocksSaid (req : BlockRequest) (c : PeerConnection) : Nat :=
  (c.enqueued.filterMap (fun m => carried (body m))).count req

def requestsHeard (req : BlockRequest) (c : PeerConnection) : Nat :=
  (c.handled.filterMap (named msgRequest)).count req

section Counting

theorem carried_other {m : Bytes} (other : PeerConnection.carriesBlock m = false) : carried (body m) = none := by
  cases shape : body m with
  | nil => rfl
  | cons id payload =>
    have kind : m[4]? = some id := by
      have first : (body m)[0]? = some id := by rw [shape]; rfl
      rw [body, List.getElem?_drop] at first
      exact first
    rw [carried, if_neg]
    intro both
    exact of_decide_eq_false other (kind.trans (congrArg some both.1))

theorem carried_piece {index offset : Nat} (data : Bytes) (low : index < 2 ^ 32) (start : offset < 2 ^ 32) :
    carried (body (Message.bytes (.piece index offset data))) = some ⟨index, offset, data.length⟩ := by
  have width : (be32 index ++ be32 offset ++ data).length = 8 + data.length := by
    rw [List.length_append, List.length_append, be32_length, be32_length]
  have later : (be32 index ++ be32 offset ++ data).drop 4 = be32 offset ++ data := by
    rw [List.append_assoc]
    exact List.drop_left' (be32_length index)
  rw [Message.bytes, body_buildMessage, carried, if_pos ⟨rfl, by omega⟩, later, width, Nat.add_sub_cancel_left,
    List.append_assoc, readBe32_append index low, readBe32_append offset start]

variable (req : BlockRequest) (c : PeerConnection)

theorem blocksSaid_enqueue (m : Bytes) :
    blocksSaid req (c.enqueue m) = blocksSaid req c + if carried (body m) = some req then 1 else 0 := by
  have longer : (c.enqueue m).enqueued = c.enqueued ++ [m] := rfl
  rw [blocksSaid, longer, List.filterMap_append, List.count_append, blocksSaid]
  congr 1
  cases brought : carried (body m) with
  | none => simp [brought]
  | some block => simp [brought, List.count_singleton]

theorem blocksSaid_tell (word : Message) (other : ∀ index offset data, word ≠ .piece index offset data) :
    blocksSaid req (c.enqueue word.bytes) = blocksSaid req c := by
  have silent : PeerConnection.carriesBlock word.bytes = false := by
    rw [Bool.eq_false_iff]
    intro kind
    obtain ⟨index, offset, data, same⟩ := (PeerConnection.carriesBlock_message word).mp kind
    exact other index offset data same
  rw [blocksSaid_enqueue, carried_other silent]
  rfl

theorem handle_waiting (id : Nat) (frequency : List Nat) (out : List PeerEvent) (msg : Bytes) :
    (c.handle id frequency out msg).out.count (.request id req) ≤
      out.count (.request id req) + if named msgRequest msg = some req then 1 else 0 := by
  cases handle_spoken c id frequency msg with
  | plain extra silent adds uncounted =>
    rw [adds, List.count_append, List.count_eq_zero_of_not_mem (silent id req)]
    exact Nat.le_add_right _ _
  | request asked asks other adds =>
    rw [adds, List.count_append, List.count_singleton, asks]
    by_cases same : asked = req
    · simp [same]
    · simp [same]
  | cancel asked other asks takes unqueues =>
    rw [other, if_neg (Option.some_ne_none req).symm, Nat.add_zero]
    by_cases waits : .request id asked ∈ out
    · rw [takes out waits, eraseLast_count waits]
      split <;> omega
    · rw [unqueues out waits]

end Counting

/-- On every connection, the blocks enqueued and the requests that wait for an answer are no more than those the
peer has made. -/
def Answering (conns : Table Nat PeerConnection) (events : List PeerEvent) : Prop :=
  ∀ id c, conns.find? id = some c → ∀ req, blocksSaid req c + events.count (.request id req) ≤ requestsHeard req c

def Mute (old c : PeerConnection) : Prop := (∀ req, blocksSaid req c = blocksSaid req old) ∧ c.handled = old.handled

section Rules

variable {conns next : Table Nat PeerConnection} {events fewer : List PeerEvent} (answering : Answering conns events)

theorem Mute.same {old c : PeerConnection} (said : c.enqueued = old.enqueued) (heard : c.handled = old.handled) :
    Mute old c :=
  ⟨fun req => by rw [blocksSaid, said, blocksSaid], heard⟩

theorem Mute.tell (c : PeerConnection) (word : Message)
    (other : ∀ index offset data, word ≠ .piece index offset data) :
    Mute c (c.enqueue word.bytes) :=
  ⟨fun req => blocksSaid_tell req c word other, rfl⟩

include answering

theorem Answering.update (each : ∀ id c, next.find? id = some c → ∃ old, conns.find? id = some old ∧ Mute old c)
    (less : ∀ id req, fewer.count (.request id req) ≤ events.count (.request id req)) : Answering next fewer := by
  intro id c found req
  obtain ⟨old, present, said, heard⟩ := each id c found
  have before := answering id old present req
  have count := less id req
  rw [said, requestsHeard, heard, ← requestsHeard]
  omega

theorem Answering.modify (id : Nat) (change : PeerConnection → PeerConnection) (mute : ∀ c, Mute c (change c)) :
    Answering (conns.modify id change) events := by
  refine answering.update ?_ (fun _ _ => Nat.le_refl _)
  intro other c found
  obtain ⟨old, present, same | ⟨-, same⟩⟩ := find_modify_some found
  · exact ⟨old, present, by rw [same]; exact .same rfl rfl⟩
  · exact ⟨old, present, by rw [same]; exact mute old⟩

theorem Answering.erase (id : Nat) : Answering (conns.erase id) events := by
  intro other c found
  rw [Table.find_erase] at found
  split at found
  · cases found
  · exact answering other c found

theorem Answering.sublist (part : fewer.Sublist events) : Answering conns fewer :=
  answering.update (fun _ c found => ⟨c, found, .same rfl rfl⟩) (fun _ _ => part.count_le _)

end Rules

section Rounds

theorem joins_answering {env : Env} {pm : PeerManager} {w next : World}
    (moves : Reaches act (Act.Joins env pm) w next)
    (answering : Answering w.pm.conns []) : Answering next.pm.conns [] := by
  have step : ∀ (state after : World) a, Act.Joins env pm a → Answering state.pm.conns [] →
      act state a = some after → Answering after.pm.conns [] := by
    intro state after a joins before moved id c found req
    obtain ⟨⟨own, -⟩, waiting, -⟩ := joins
    rcases act_connection own moved found with
      ⟨old, present, same | ⟨serving, -⟩ | ⟨-, same⟩⟩ | ⟨-, -, -, -, sock, peer, now, answers, -, same⟩
    · rw [same]
      exact before id old present req
    · exact absurd serving waiting
    · rw [same, blocksSaid_tell req old _ (by simp)]
      exact before id old present req
    · have none_ : blocksSaid req (newcomer state.pm sock peer now false) = 0 := rfl
      rw [same]
      cases answers with
      | false => exact Nat.le_of_eq none_
      | true =>
        have told := blocksSaid_tell req (newcomer state.pm sock peer now false)
          (.handshake state.pm.torrent state.pm.peerId) (by simp)
        exact Nat.le_of_eq (told.trans none_)
  exact Reaches.preserves step moves answering

theorem Answering.message {conns : Table Nat PeerConnection} {out : List PeerEvent} {c : PeerConnection} {id : Nat}
    (answering : Answering conns out) (found : conns.find? id = some c) (frequency : List Nat) (msg rest : Bytes)
    {handled : Handled} (result : handled =
      { c with readBuffer := rest, handled := c.handled ++ [msg] }.handle id frequency out msg) :
    Answering (conns.modify id (fun _ => handled.conn)) handled.out := by
  generalize taken : ({ c with readBuffer := rest, handled := c.handled ++ [msg] } : PeerConnection) = d at result
  have effect := PeerConnection.handle_effect d id frequency out msg
  rw [← result] at effect
  intro other after present req
  rw [Table.find_modify] at present
  by_cases own : other = id
  · rw [if_pos own, own, found, Option.map_some] at present
    have before := answering id c found req
    have waiting := handle_waiting req d id frequency out msg
    have said : blocksSaid req handled.conn = blocksSaid req c := by
      rw [blocksSaid, Session.effect_enqueued effect, ← taken, blocksSaid]
    have heard : requestsHeard req handled.conn =
        requestsHeard req c + if named msgRequest msg = some req then 1 else 0 := by
      rw [requestsHeard, (effect_reading effect).handled, ← taken, List.filterMap_append, List.count_append,
        requestsHeard]
      congr 1
      cases asked : named msgRequest msg <;> simp [asked, List.count_singleton]
    rw [← Option.some.inj present, own, said, heard]
    rw [← result] at waiting
    omega
  · rw [if_neg own] at present
    rw [result, handle_others d id frequency out msg own req]
    exact answering other after present req

theorem serves_answering {w next : World} (serves : Serves w next) (answering : Answering w.pm.conns w.out) :
    Answering next.pm.conns next.out := by
  have step : ∀ (state after : World) a, Act.Serving a → Answering state.pm.conns state.out →
      act state a = some after → Answering after.pm.conns after.out := by
    intro state after a serving before moved
    cases a with
    | promote | send | outside | ban | collect => cases serving
    | drain id result now =>
      cases moved
      exact before.modify id _ (fun c => .same (Session.drain_enqueued c result now)
        (drain_reading c result now).handled)
    | receive id chunk now =>
      cases moved
      exact before.modify id _ (fun c => .same rfl rfl)
    | keepAlives now =>
      cases moved
      refine before.update ?_ (fun _ _ => Nat.le_refl _)
      intro id c found
      simp only [keepAlives, Table.find_update] at found
      obtain ⟨old, present, same⟩ := Option.map_eq_some_iff.mp found
      refine ⟨old, present, ?_⟩
      split at same
      · rw [← same]
        exact .tell old .keepAlive (by simp)
      · rw [← same]
        exact .same rfl rfl
    | message id =>
      obtain ⟨handled, found, same⟩ := Option.map_eq_some_iff.mp moved
      obtain ⟨c, present, taken⟩ := Option.bind_eq_some_iff.mp found
      unfold nextMessage at taken
      split at taken
      · rename_i msg rest extracted
        rw [← same]
        exact before.message present state.pm.pieceFrequency msg rest (Option.some.inj taken).symm
      · cases taken
    | drop id =>
      rcases act_drop moved with ⟨-, same⟩ | ⟨c, -, same⟩
      · rw [same]
        exact before
      · rw [same]
        refine (before.erase id).update (fun _ c found => ⟨c, found, .same rfl rfl⟩) ?_
        intro other req
        have other_kind : PeerEvent.request other req ∉ [PeerEvent.dropped id (requestsOf c.pending)] := by simp
        rw [List.count_append, List.count_eq_zero_of_not_mem other_kind, Nat.add_zero]
  exact Reaches.preserves step serves answering

theorem handleEvents_answering (env : Env) (pfds : List PollFd) {pm : PeerManager} (room : Room pm)
    (answering : Answering pm.conns []) :
    Answering (handleEvents env pfds pm).1.conns (handleEvents env pfds pm).2 := by
  have joined := joins_answering (admitted_joins env pfds pm room).1 answering
  have admitted : Answering (admitted env pfds pm).pm.conns (admitted env pfds pm).out := by
    refine joined.update (fun _ c found => ⟨c, found, .same rfl rfl⟩) ?_
    intro id req
    rw [List.count_eq_zero_of_not_mem (admitted_silent env pfds pm id req)]
    exact Nat.zero_le _
  obtain ⟨more, inbound⟩ := accepted_inbound env pfds (expired env (PeerManager.swept env pfds pm).pm)
  rw [handleEvents_stages]
  dsimp only
  rw [(dialMore_dialed env _).1.frame, inbound]
  exact serves_answering (swept_serves env pfds pm) admitted

end Rounds

end TorrentPeer.PeerManager

namespace TorrentPeer.Session

open PeerManager PieceManager Wire Transition Torrent Splice Framing

section Moves

variable {sha1 : Bytes → Bytes} {kernel : Kernel} {t : TorrentFile} {f next : Flow}

theorem greeted_mute (have_ : Bitfield) (complete : Bool) (c : PeerConnection) :
    Mute c (greeted have_ complete c) := by
  refine ⟨fun req => ?_, ?_⟩
  · cases complete with
    | true =>
      exact (blocksSaid_tell req _ .unchoke (by simp)).trans (blocksSaid_tell req c (.bitfield have_.bytes) (by simp))
    | false =>
      exact (blocksSaid_tell req _ .interested (by simp)).trans
        ((blocksSaid_tell req _ .unchoke (by simp)).trans (blocksSaid_tell req c (.bitfield have_.bytes) (by simp)))
  · cases complete <;> rfl

theorem Answering.served (geometry : Geometry t) {s after : Session}
    (sound : Sound sha1 t s.pieces s.disk s.store) {id : Nat}
    {req : BlockRequest} {rest : List PeerEvent} (typed : RequestTyped (.request id req))
    (served : s.onRequest kernel id req = .ok after) (answering : Answering s.peers.conns (.request id req :: rest)) :
    Answering after.peers.conns rest := by
  have fewer := answering.sublist (List.sublist_cons_self _ rest)
  obtain ⟨index, offset, short⟩ := typed
  cases serve_cases geometry sound id req after ⟨index, offset, short⟩ served with
  | ignored read same => exact fewer
  | sent read same held space inside count =>
    have there := sound.valid.inside req.pieceIndex (sound.valid.bits ▸ Bitfield.get_inside _ _ held)
    have width : (slice (pieceBytes t (onDisk s.disk s.store) req.pieceIndex) req.offset req.length).length =
        req.length := by
      apply slice_length
      rw [pieceBytes, slice_length _ _ _ (by rw [sound.width]; exact geometry.piece_end _ there)]
      exact inside
    generalize slice (pieceBytes t (onDisk s.disk s.store) req.pieceIndex) req.offset req.length = data at width
    intro other c found wanted
    obtain ⟨old, present, same | ⟨here, same⟩⟩ := find_modify_some found
    · rw [same]
      exact fewer other old present wanted
    · have before := answering other old present wanted
      rw [same, blocksSaid_enqueue, carried_piece data index offset, width]
      rw [here, List.count_cons] at before
      rw [here]
      have heard : requestsHeard wanted (old.enqueue (Message.bytes (.piece req.pieceIndex req.offset data))) =
        requestsHeard wanted old := rfl
      rw [heard]
      by_cases equal : req = wanted
      · simp [equal] at before ⊢
        omega
      · simp [equal] at before ⊢
        omega

theorem Answering.judged {s judged : Session} {id : Nat} {block : Block} {result : BlockResult} {hosts : List Bytes}
    {events : List PeerEvent} (outcome : Judged sha1 kernel s id block result hosts judged)
    (answering : Answering s.peers.conns events) : Answering judged.peers.conns events := by
  cases outcome with
  | rejected count piece => exact answering
  | incomplete count pp b pieces fits ruled => exact answering
  | failed count pp b pieces piece fits ruled => exact answering
  | verified count pp b pieces piece written fits ruled stored =>
    refine answering.update ?_ (fun _ _ => Nat.le_refl _)
    intro other c found
    rw [broadcastHave, Table.find_update] at found
    obtain ⟨old, present, same⟩ := Option.map_eq_some_iff.mp found
    refine ⟨old, present, ?_⟩
    rw [← same]
    exact .tell old (.have_ _) (by simp)

theorem Ask.answering {s after : Session} {events : List PeerEvent} (ask : Ask s after)
    (answering : Answering s.peers.conns events) : Answering after.peers.conns events := by
  cases ask with
  | ask id c choice now req pieces found unchoked slot picked =>
    exact answering.modify id _ (fun c =>
      ⟨fun wanted => blocksSaid_tell wanted _ (.request req) (by simp), rfl⟩)
  | decline id c choice pieces picked => exact answering

theorem Quiet.answering (geometry : Geometry t) (custody : Custody sha1 t f) (move : Quiet sha1 kernel f next)
    (answering : Answering f.session.peers.conns f.queue) : Answering next.session.peers.conns next.queue := by
  cases move with
  | build order => exact answering
  | round order revents env idle =>
    have built := buildFds_apart f.session.peers order
    rw [idle] at answering
    rw [← built.conns] at answering
    exact handleEvents_answering env _ (built.room custody.room) answering
  | dial env fresh =>
    have apart := addPeers_apart env f.session.peers fresh
    dsimp only
    rw [apart.conns]
    exact answering
  | complete => exact answering
  | release event rest reqs front gives =>
    rw [front] at answering
    exact answering.sublist (List.sublist_cons_self _ rest)
  | join id rest front =>
    rw [front] at answering
    dsimp only
    rw [onJoined_peers]
    exact (answering.sublist (List.sublist_cons_self _ rest)).modify id _ (greeted_mute _ _)
  | serve id req rest session front served =>
    have typed := custody.typed (.request id req) (by rw [front]; exact List.mem_cons_self ..)
    rw [front] at answering
    exact Answering.served geometry custody.sound typed served answering
  | file id block rest result taken judged hosts front idle took verdict =>
    rw [front] at answering
    exact Answering.judged (judge_cases sha1 kernel f.session taken judged id block result hosts took verdict)
      (answering.sublist (List.sublist_cons_self _ rest))
  | convict host hosts listed => exact answering
  | expel id c found =>
    rw [expel_conns id c found]
    exact answering.erase id
  | expire id c cutoff found => exact answering.modify id _ (fun c => .same rfl rfl)

theorem reached_answering {sys : Sys} (reached : Reached sha1 kernel t sys) :
    Answering sys.session.peers.conns sys.flow.queue := by
  have geometry := reached_geometry reached
  have both : Custody sha1 t sys.flow ∧ Answering sys.flow.session.peers.conns sys.flow.queue := by
    refine reached_invariant (fun f => Custody sha1 t f ∧ Answering f.session.peers.conns f.queue) ?_ ?_ ?_ reached
    · intro sys begins
      refine ⟨reached_custody (.start sys begins), ?_⟩
      intro id c found
      have absent : sys.session.peers.conns.find? id = some c := found
      rw [(begins_fresh begins).conns] at absent
      cases absent
    · intro f next before move
      exact ⟨before.1.quiet geometry move, Quiet.answering geometry before.1 move before.2⟩
    · intro f next before ask
      exact ⟨before.1.ask geometry ask, Ask.answering ask before.2⟩
  exact both.2

end Moves

/-- Whatever a peer sends, in every reachable state: no block has been enqueued for it more often than it has
asked for exactly this block, and each of its requests that still waits is one more that it has made. -/
theorem blocks_answer_requests (sha1 : Bytes → Bytes) (kernel : Kernel) (t : TorrentFile) (sys : Sys)
    (reached : Reached sha1 kernel t sys) (id : Nat) (c : PeerConnection)
    (found : sys.session.peers.conns.find? id = some c) (req : BlockRequest) :
    blocksSaid req c + sys.phase.queue.count (.request id req) ≤ requestsHeard req c :=
  reached_answering reached id c found req

section Example

def writes : List Input :=
  .poll [] (fun i => if i = 1 then pollOut else 0) { quietEnv with send := fun _ => .accepted 100 } :: roundEnd

def reads (chunk : Bytes) (events : Nat) : List Input :=
  .poll [] (fun i => if i = 1 then pollIn else 0)
    { quietEnv with recv := fun _ => .data chunk, send := fun _ => .accepted 100 } ::
    List.replicate events (.dispatch (fun _ => [])) ++ roundEnd

def wantedBlock : BlockRequest := ⟨0, 0, 1⟩

def leechStream : Bytes :=
  [0, 0, 0, 2, 5, 0, 0, 0, 0, 1, 1, 0, 0, 0, 1, 2, 0, 0, 0, 13, 6, 0, 0, 0, 0, 0, 0, 0, 0, 0, 0, 0, 1]

def seedStream : Bytes := [0, 0, 0, 2, 5, 128, 0, 0, 0, 1, 1]

def seedRun : List Input :=
  arrives 0 (ascii "b") [] :: roundEnd ++ reads (buildHandshake oneByteWanted (List.replicate 20 8)) 1 ++
    writes ++ writes ++ writes ++ reads leechStream 2

def leechRun : List Input :=
  writes ++ reads (buildHandshake oneByteWanted (List.replicate 20 7)) 1 ++ reads seedStream 1 ++
    writes ++ writes ++ writes ++ writes

end Example

/-- The only block was asked for once and has been enqueued once. -/
theorem blocks_answer_requests_served :
    ∃ sys c, Reached spotDigest wholeKernel oneByteWanted sys ∧ sys.session.peers.conns.find? 0 = some c ∧
      blocksSaid wantedBlock c = 1 ∧
      blocksSaid wantedBlock c + sys.phase.queue.count (.request 0 wantedBlock) ≤ requestsHeard wantedBlock c := by
  have served : (playsAs (List.replicate 20 7) [] [1] seedRun).bind (fun sys =>
      (sys.session.peers.conns.find? 0).map (blocksSaid wantedBlock)) = some 1 := by
    decide +kernel
  obtain ⟨sys, ran, shown⟩ := Option.bind_eq_some_iff.mp served
  obtain ⟨c, found, count⟩ := Option.map_eq_some_iff.mp shown
  have reached : Reached spotDigest wholeKernel oneByteWanted sys := (playsAs_within ran).reachable
  exact ⟨sys, c, reached, found, count,
    blocks_answer_requests spotDigest wholeKernel oneByteWanted sys reached 0 c found wantedBlock⟩

section Exchange

theorem handled_enqueued {sha1 : Bytes → Bytes} {kernel peerKernel : Kernel} {t : TorrentFile} {first second : Sys}
    (within : ReachableWithin (step sha1 kernel) (Begins sha1 kernel t) HailsWhole first)
    (reached : Reached sha1 peerKernel t second) (few : first.session.peers.promoted < 2 ^ 32)
    (wide : t.pieces.length ≤ 8 * (2 ^ 20 - 1)) {i j : Nat} {a b : PeerConnection}
    (ours : first.session.peers.conns.find? i = some a) (theirs : second.session.peers.conns.find? j = some b)
    (wire : b.sock.received <+: a.sock.sent) : (b.handled.map frame).Sublist a.enqueued := by
  obtain ⟨count, size, said, kept, voice⟩ := within_meeting within reached few wide ours theirs
  have heard := (used_listening (reached_used reached).1).heard j b theirs
  exact (voice.delivered (by rw [count]; exact wide) size heard wire).trans voice.listed

def blocksHeard (req : BlockRequest) (c : PeerConnection) : Nat := (c.handled.filterMap carried).count req

def requestsSaid (req : BlockRequest) (c : PeerConnection) : Nat :=
  (c.enqueued.filterMap (fun m => named msgRequest (body m))).count req

/-- What one end has handled is counted among what the other end enqueued. -/
theorem heard_said {messages said : List Bytes} (part : (messages.map frame).Sublist said)
    (read : Bytes → Option BlockRequest) (req : BlockRequest) :
    (messages.filterMap read).count req ≤ (said.filterMap (fun m => read (body m))).count req := by
  have same : messages.filterMap read = (messages.map frame).filterMap (fun m => read (body m)) := by
    have whole : ∀ msg, read msg = read (body (frame msg)) := fun msg => by rw [body_frame]
    rw [List.filterMap_map, funext whole]
    rfl
  rw [same]
  exact (part.filterMap _).count_le req

end Exchange

/-- Two clients of one torrent on the ends of one connection, neither of which has cut a handshake short: no block
has come to the second more often than it has asked the first for exactly this block. -/
theorem clients_exchange (sha1 : Bytes → Bytes) (kernel peerKernel : Kernel) (t : TorrentFile) (first second : Sys)
    (within : ReachableWithin (step sha1 kernel) (Begins sha1 kernel t) HailsWhole first)
    (opposite : ReachableWithin (step sha1 peerKernel) (Begins sha1 peerKernel t) HailsWhole second)
    (few : first.session.peers.promoted < 2 ^ 32) (fewer : second.session.peers.promoted < 2 ^ 32)
    (wide : t.pieces.length ≤ 8 * (2 ^ 20 - 1)) (i j : Nat) (a b : PeerConnection)
    (ours : first.session.peers.conns.find? i = some a) (theirs : second.session.peers.conns.find? j = some b)
    (there : b.sock.received <+: a.sock.sent) (back : a.sock.received <+: b.sock.sent) (req : BlockRequest) :
    blocksHeard req b ≤ requestsSaid req b := by
  obtain ⟨answers, asks⟩ : (b.handled.map frame).Sublist a.enqueued ∧ (a.handled.map frame).Sublist b.enqueued :=
    ⟨handled_enqueued within opposite.reachable few wide ours theirs there,
      handled_enqueued opposite within.reachable fewer wide theirs ours back⟩
  calc blocksHeard req b
      ≤ blocksSaid req a := heard_said answers carried req
    _ ≤ blocksSaid req a + first.flow.queue.count (.request i req) := Nat.le_add_right _ _
    _ ≤ requestsHeard req a := reached_answering within.reachable i a ours req
    _ ≤ requestsSaid req b := heard_said asks (named msgRequest) req

/-- The block goes over once, and was asked for once. -/
theorem clients_exchange_one_block :
    ∃ (first second : Sys) (a b : PeerConnection), first.session.peers.conns.find? 0 = some a ∧
      second.session.peers.conns.find? 0 = some b ∧ b.sock.received = a.sock.sent ∧ a.sock.received = b.sock.sent ∧
      blocksHeard wantedBlock b = 1 ∧ blocksHeard wantedBlock b ≤ requestsSaid wantedBlock b := by
  have sends : (playsAs (List.replicate 20 7) [] [1] (seedRun ++ writes)).bind (fun sys =>
      (sys.session.peers.conns.find? 0).map (fun c => decide (sys.session.peers.promoted = 1 ∧
        c.sock.sent = buildHandshake oneByteWanted (List.replicate 20 7) ++ seedStream ++
          Message.bytes (.piece 0 0 [1]) ∧
        c.sock.received = buildHandshake oneByteWanted (List.replicate 20 8) ++ leechStream))) = some true := by
    decide +kernel
  have asks : (playsAs (List.replicate 20 8) [⟨ascii "a", ascii "1"⟩] []
      (leechRun ++ reads (Message.bytes (.piece 0 0 [1])) 1)).bind (fun sys =>
      (sys.session.peers.conns.find? 0).map (fun c => decide (sys.session.peers.promoted = 1 ∧
        c.sock.received = buildHandshake oneByteWanted (List.replicate 20 7) ++ seedStream ++
          Message.bytes (.piece 0 0 [1]) ∧
        c.sock.sent = buildHandshake oneByteWanted (List.replicate 20 8) ++ leechStream ∧
        blocksHeard wantedBlock c = 1))) = some true := by
    decide +kernel
  obtain ⟨first, ran, shown⟩ := Option.bind_eq_some_iff.mp sends
  obtain ⟨a, ours, seen⟩ := Option.map_eq_some_iff.mp shown
  obtain ⟨few, sent, received⟩ := of_decide_eq_true seen
  obtain ⟨second, dialled, shown⟩ := Option.bind_eq_some_iff.mp asks
  obtain ⟨b, theirs, seen⟩ := Option.map_eq_some_iff.mp shown
  obtain ⟨fewer, arrived, asked, once⟩ := of_decide_eq_true seen
  have there : b.sock.received = a.sock.sent := arrived.trans sent.symm
  have back : a.sock.received = b.sock.sent := received.trans asked.symm
  refine ⟨first, second, a, b, ours, theirs, there, back, once, ?_⟩
  exact clients_exchange spotDigest wholeKernel wholeKernel oneByteWanted first second (playsAs_within ran)
    (playsAs_within dialled) (by rw [few]; decide) (by rw [fewer]; decide) (by decide) 0 0 a b ours theirs
    (by rw [there]) (by rw [back]) wantedBlock

end TorrentPeer.Session
