import TorrentPeer.Runtime.Backlog
import TorrentPeer.Runtime.Beliefs
import TorrentPeer.Runtime.Greetings
import TorrentPeer.Runtime.Speech
import TorrentPeer.Runtime.Utterances

/-! Two clients of one torrent connected to each other. What one of them sends, the other takes without an
error, and believes; and when all of it has arrived the second knows what the first has. -/

namespace TorrentPeer.Wire

open BigEndian

def body (m : Bytes) : Bytes := m.drop 4

@[simp] theorem body_buildMessage (id : UInt8) (payload : Bytes) : body (buildMessage id payload) = id :: payload :=
  List.drop_left' (be32_length _)

theorem body_frame (msg : Bytes) : body (Framing.frame msg) = msg := List.drop_left' (be32_length _)

theorem map_body_frame (messages : List Bytes) : (messages.map Framing.frame).map body = messages := by
  rw [List.map_map, show body ∘ Framing.frame = id from funext body_frame, List.map_id]

end TorrentPeer.Wire

namespace TorrentPeer.PeerConnection

open Wire BigEndian

section Accepting

variable (c : PeerConnection) (frequency : List Nat) (out : List PeerEvent) (payload : Bytes)

theorem handle_have (id : Nat) : c.handle id frequency out (msgHave :: payload) = c.onHave frequency out payload := by
  rw [handle, if_neg (by decide), if_neg (by decide), if_neg (by decide), if_neg (by decide), if_pos rfl]

theorem handle_bitfield (id : Nat) :
    c.handle id frequency out (msgBitfield :: payload) = c.onBitfield frequency out payload := by
  rw [handle, if_neg (by decide), if_neg (by decide), if_neg (by decide), if_neg (by decide),
    if_neg (by decide), if_pos rfl]

theorem handle_request (id : Nat) :
    c.handle id frequency out (msgRequest :: payload) = c.onRequest frequency out payload id := by
  rw [handle, if_neg (by decide), if_neg (by decide), if_neg (by decide), if_neg (by decide), if_neg (by decide),
    if_neg (by decide), if_pos rfl]

theorem handle_piece (id : Nat) :
    c.handle id frequency out (msgPiece :: payload) = c.onPiece frequency out payload id := by
  rw [handle, if_neg (by decide), if_neg (by decide), if_neg (by decide), if_neg (by decide), if_neg (by decide),
    if_neg (by decide), if_neg (by decide), if_pos rfl]

theorem onHave_accepts (size : payload.length = 4)
    (stored : ∃ after, c.hasPieces.set (readBe32 payload) = .ok after) :
    (c.onHave frequency out payload).thrown = none := by
  obtain ⟨after, stored⟩ := stored
  have inside := (Bitfield.set_bits _ _ _ stored).2.1
  rw [onHave, if_neg (not_not.mpr size)]
  dsimp only
  rw [if_neg (Nat.not_le.mpr inside), stored]
  split <;> rfl

theorem onBitfield_accepts (field : Bitfield) (parsed : Bitfield.fromBytes payload c.hasPieces.bits = .ok field) :
    (c.onBitfield frequency out payload).thrown = none := by
  rw [onBitfield, parsed]
  split <;> rfl

theorem onRequest_accepts (id : Nat) (size : payload.length = 12) (short : readBe32 (payload.drop 8) ≤ kBlockSize) :
    (c.onRequest frequency out payload id).thrown = none := by
  rw [onRequest, if_neg (not_not.mpr size)]
  dsimp only
  rw [if_neg (Nat.not_lt.mpr short)]
  split <;> rfl

theorem onPiece_accepts (id : Nat) (long : 8 ≤ payload.length) :
    (c.onPiece frequency out payload id).thrown = none := by
  rw [onPiece, if_neg (Nat.not_lt.mpr long)]
  dsimp only
  split <;> rfl

end Accepting

end TorrentPeer.PeerConnection

namespace TorrentPeer.Session

open PeerManager PeerConnection PieceManager Wire BigEndian Framing Transition

section Words

variable {t : TorrentFile} {pieces : PieceManager} {array : Bytes} {message : Message}

theorem Fit.framed (wide : pieces.have_.bits ≤ 8 * (2 ^ 20 - 1)) (fit : Fit t pieces array message)
    (wired : Message.Wired message) :
    message.bytes = frame (body message.bytes) ∧ (body message.bytes).length ≤ 2 ^ 20 := by
  have built : ∀ (id : UInt8) (payload : Bytes), payload.length < 2 ^ 20 →
      buildMessage id payload = frame (body (buildMessage id payload)) ∧
        (body (buildMessage id payload)).length ≤ 2 ^ 20 := by
    intro id payload small
    rw [body_buildMessage]
    exact ⟨buildMessage_frame small, small⟩
  cases message with
  | handshake torrent peerId => exact wired.elim
  | keepAlive => exact ⟨rfl, Nat.zero_le _⟩
  | choke => exact built _ _ (by decide)
  | unchoke => exact built _ _ (by decide)
  | interested => exact built _ _ (by decide)
  | have_ index => exact built _ _ (by rw [be32_length]; decide)
  | bitfield raw =>
    obtain ⟨field, bytes, bits, ⟨set, represents⟩, -⟩ := fit
    apply built
    have width := represents.width
    have ceil := (Bitfield.ceil_bounds field.bits).2
    rw [bytes, width]
    omega
  | request req => exact built _ _ (by simp)
  | piece index offset data =>
    apply built
    have short : data.length ≤ 16384 := fit.2.2.1
    simp only [List.length_append, be32_length]
    omega

theorem Fit.accepted (narrow : pieces.have_.bits < 2 ^ 32 - 7) (fit : Fit t pieces array message)
    (wired : Message.Wired message) (c : PeerConnection) (width : c.hasPieces.bits = pieces.have_.bits)
    (tidy : c.hasPieces.Tidy) (id : Nat) (frequency : List Nat) (out : List PeerEvent) :
    (c.handle id frequency out (body message.bytes)).thrown = none := by
  cases message with
  | handshake torrent peerId => exact wired.elim
  | keepAlive => rfl
  | choke => exact fit.elim
  | unchoke => rfl
  | interested => rfl
  | have_ index =>
    have inside := Bitfield.get_inside _ _ fit
    rw [Message.bytes, body_buildMessage, handle_have]
    apply onHave_accepts _ _ _ _ (be32_length index)
    rw [readBe32_be32 index (by omega)]
    obtain ⟨after, stored, -⟩ := tidy.gain (by rw [width]; exact narrow) (by rw [width]; exact inside)
    exact ⟨after, stored⟩
  | bitfield raw =>
    obtain ⟨field, bytes, bits, whole, -⟩ := fit
    rw [Message.bytes, body_buildMessage, handle_bitfield]
    apply onBitfield_accepts _ _ _ _ field
    rw [bytes, width, ← bits]
    exact whole.round_trip (by rw [bits]; exact narrow)
  | request req =>
    obtain ⟨-, -, short⟩ := fit
    rw [Message.bytes, buildRequest, body_buildMessage, handle_request]
    apply onRequest_accepts
    · simp
    · have last : (be32 req.pieceIndex ++ be32 req.offset ++ be32 req.length).drop 8 = be32 req.length := rfl
      have small : req.length < 2 ^ 32 := Nat.lt_of_le_of_lt short (by decide)
      rw [last, readBe32_be32 req.length small]
      exact short
  | piece index offset data =>
    rw [Message.bytes, body_buildMessage, handle_piece]
    apply onPiece_accepts
    simp only [List.length_append, be32_length]
    omega

theorem learn_have {known : Belief} (narrow : known.pieces.bits < 2 ^ 32 - 7) (tidy : known.pieces.Tidy) {index : Nat}
    (inside : index < known.pieces.bits) (i : Nat) :
    (known.learn (body (Message.bytes (.have_ index)))).pieces.get i =
    (decide (i = index) || known.pieces.get i) := by
  have told : known.learn (body (Message.bytes (.have_ index))) = known.have_ (be32 index) := by
    rw [Message.bytes, body_buildMessage]
    rfl
  obtain ⟨after, stored, -⟩ := tidy.gain narrow inside
  rw [told, Belief.have_, readBe32_be32 index (by omega)]
  split
  · rename_i already
    have known_ : known.pieces.get index = true := already.resolve_left (not_not.mpr (be32_length index))
    by_cases here : i = index
    · rw [here, known_, Bool.or_true]
    · rw [decide_eq_false here, Bool.false_or]
  · rw [Bitfield.setCall, stored]
    exact Bitfield.set_get _ _ _ _ stored

theorem Fit.believed (narrow : pieces.have_.bits < 2 ^ 32 - 7) (fit : Fit t pieces array message)
    (wired : Message.Wired message) {known : Belief} (width : known.pieces.bits = pieces.have_.bits)
    (tidy : known.pieces.Tidy) (true_ : ∀ i, known.pieces.get i = true → pieces.have_.get i = true) (i : Nat)
    (held : (known.learn (body message.bytes)).pieces.get i = true) : pieces.have_.get i = true := by
  cases message with
  | handshake torrent peerId => exact wired.elim
  | keepAlive => exact true_ i held
  | choke => exact fit.elim
  | unchoke => exact true_ i held
  | interested => exact true_ i held
  | have_ index =>
    have inside := Bitfield.get_inside _ _ fit
    rw [learn_have (by rw [width]; exact narrow) tidy (by rw [width]; exact inside), Bool.or_eq_true,
      decide_eq_true_eq] at held
    rcases held with here | before
    · rw [here]
      exact fit
    · exact true_ i before
  | bitfield raw =>
    obtain ⟨field, bytes, bits, whole, part⟩ := fit
    have told : known.learn (body (Message.bytes (.bitfield raw))) = known.bitfield raw := by
      rw [Message.bytes, body_buildMessage]
      rfl
    have parsed : Bitfield.fromBytes raw known.pieces.bits = .ok field := by
      rw [bytes, width, ← bits]
      exact whole.round_trip (by rw [bits]; exact narrow)
    rw [told, Belief.bitfield, parsed] at held
    split at held
    · exact true_ i held
    · exact part i held
  | request req =>
    rw [Message.bytes, buildRequest, body_buildMessage] at held
    exact true_ i held
  | piece index offset data =>
    rw [Message.bytes, body_buildMessage] at held
    exact true_ i held

theorem Fit.settled (narrow : pieces.have_.bits < 2 ^ 32 - 7) (fit : Fit t pieces array message)
    (wired : Message.Wired message) {known : Belief} (width : known.pieces.bits = pieces.have_.bits)
    (tidy : known.pieces.Tidy) (done : known.settled = true) :
    (known.learn (body message.bytes)).settled = true ∧
      ∀ i, (known.learn (body message.bytes)).pieces.get i =
        (decide (haveIndex message.bytes = some i) || known.pieces.get i) := by
  have quiet : ∀ {other : Message}, haveIndex other.bytes = none →
      known.learn (body other.bytes) = { known with choking := (known.learn (body other.bytes)).choking } →
      (known.learn (body other.bytes)).settled = true ∧ ∀ i, (known.learn (body other.bytes)).pieces.get i =
        (decide (haveIndex other.bytes = some i) || known.pieces.get i) := by
    intro other nothing same
    rw [same, nothing]
    exact ⟨done, fun i => rfl⟩
  cases message with
  | handshake torrent peerId => exact wired.elim
  | have_ index =>
    have inside := Bitfield.get_inside _ _ fit
    refine ⟨?_, ?_⟩
    · rw [Message.bytes, body_buildMessage]
      show (known.have_ (be32 index)).settled = true
      rw [Belief.have_]
      split <;> exact done
    · intro i
      rw [learn_have (by rw [width]; exact narrow) tidy (by rw [width]; exact inside),
        haveIndex_have (by omega)]
      simp only [Option.some.injEq, eq_comm]
  | bitfield raw =>
    refine quiet (haveIndex_other _ (by decide)) ?_
    rw [Message.bytes, body_buildMessage]
    show known.bitfield raw = { known with choking := (known.bitfield raw).choking }
    rw [Belief.bitfield, if_pos done]
  | keepAlive => exact quiet rfl rfl
  | choke => exact fit.elim
  | unchoke => exact quiet (haveIndex_other _ (by decide)) rfl
  | interested => exact quiet (haveIndex_other _ (by decide)) rfl
  | request req =>
    refine quiet (haveIndex_other _ (by decide)) ?_
    rw [Message.bytes, buildRequest, body_buildMessage]
    rfl
  | piece index offset data =>
    refine quiet (haveIndex_other _ (by decide)) ?_
    rw [Message.bytes, body_buildMessage]
    rfl

theorem learn_choking (known : Belief) {id : UInt8} (payload : Bytes) (choke : id ≠ msgChoke)
    (unchoke : id ≠ msgUnchoke) :
    (known.learn (id :: payload)).choking = known.choking := by
  rw [Belief.learn]
  split
  · rw [Belief.have_]
    split <;> rfl
  · split
    · rw [Belief.bitfield]
      split <;> rfl
    · rfl

theorem Fit.choking (fit : Fit t pieces array message) (wired : Message.Wired message) (known : Belief)
    (open_ : known.choking = false ∨ message.bytes = Message.bytes .unchoke) :
    (known.learn (body message.bytes)).choking = false := by
  have quiet : ∀ (id : UInt8) (payload : Bytes), id ≠ msgChoke → id ≠ msgUnchoke →
      message.bytes = buildMessage id payload → (known.learn (body message.bytes)).choking = false := by
    intro id payload choke unchoke built
    rw [built] at open_ ⊢
    rw [body_buildMessage, learn_choking known payload choke unchoke]
    refine open_.resolve_right (fun same => ?_)
    have kinds := congrArg body same
    rw [body_buildMessage, Message.bytes, body_buildMessage] at kinds
    exact unchoke (List.cons.inj kinds).1
  cases message with
  | handshake torrent peerId => exact wired.elim
  | choke => exact fit.elim
  | unchoke => rfl
  | keepAlive => exact open_.resolve_right (by decide)
  | interested => exact quiet _ _ (by decide) (by decide) rfl
  | have_ index => exact quiet _ _ (by decide) (by decide) rfl
  | bitfield raw => exact quiet _ _ (by decide) (by decide) rfl
  | request req => exact quiet _ _ (by decide) (by decide) rfl
  | piece index offset data => exact quiet _ _ (by decide) (by decide) rfl

theorem lasting_block (word : Message) : (!carriesBlock word.bytes) = Message.lasting word := by
  cases kind : carriesBlock word.bytes with
  | true =>
    obtain ⟨index, offset, data, same⟩ := (carriesBlock_message word).mp kind
    rw [same]
    rfl
  | false =>
    cases word with
    | piece index offset data =>
      have block := (carriesBlock_message (.piece index offset data)).mpr ⟨index, offset, data, rfl⟩
      rw [kind] at block
      cases block
    | _ => rfl

theorem wired_other {word : Message} (wired : Message.Wired word) (torrent : TorrentFile) (peerId : Bytes) :
    word.bytes ≠ Message.bytes (.handshake torrent peerId) := by
  intro same
  have letter : (Message.bytes (.handshake torrent peerId))[4]? = some 84 := rfl
  have other : ∀ (id : UInt8) (payload : Bytes), word.bytes = buildMessage id payload → id = 84 := by
    intro id payload built
    rw [← same, built, buildMessage_id] at letter
    exact Option.some.inj letter
  cases word with
  | handshake torrent peerId => exact wired
  | keepAlive =>
    rw [← same] at letter
    cases letter
  | choke => exact absurd (other _ _ rfl) (by decide)
  | unchoke => exact absurd (other _ _ rfl) (by decide)
  | interested => exact absurd (other _ _ rfl) (by decide)
  | have_ index => exact absurd (other _ _ rfl) (by decide)
  | bitfield raw => exact absurd (other _ _ rfl) (by decide)
  | request req => exact absurd (other _ _ rfl) (by decide)
  | piece index offset data => exact absurd (other _ _ rfl) (by decide)

end Words

def Fits (t : TorrentFile) (pieces : PieceManager) (array : Bytes) (messages : List Bytes) : Prop :=
  ∀ m ∈ messages, ∃ message : Message, m = message.bytes ∧ Message.Wired message ∧ Fit t pieces array message

/-- What a session has said on a connection behind its handshake, and what of it goes to the kernel. -/
structure Voice (t : TorrentFile) (s : Session) (c : PeerConnection) (said kept : List Bytes) : Prop where
  enqueued : c.enqueued = said ∨ c.enqueued = ownHandshake s.peers :: said
  part : kept.Sublist said
  others : kept.filter (fun m => !carriesBlock m) = said.filter (fun m => !carriesBlock m)
  stream : c.sock.sent ++ unsent c = ownHandshake s.peers ++ kept.flatten
  fits : Fits t s.pieces (onDisk s.disk s.store) said

section Sending

variable {sha1 : Bytes → Bytes} {kernel : Kernel} {t : TorrentFile} {sys : Sys} {id : Nat} {c : PeerConnection}

theorem within_voice (within : ReachableWithin (step sha1 kernel) (Begins sha1 kernel t) HailsWhole sys)
    (few : sys.session.peers.promoted < 2 ^ 32) (narrow : t.pieces.length % 2 ^ 32 < 2 ^ 32 - 7)
    (found : sys.session.peers.conns.find? id = some c) : ∃ said kept, Voice t sys.session c said kept := by
  have truthful := reached_truthful narrow within.reachable
  obtain ⟨ops, streamed⟩ := (hailing_vocal within).voiced.speaking few id c found
  obtain ⟨words, part, lasting, stream⟩ := streamed.stream
  obtain ⟨start, lead, ⟨-, -, opened⟩, -, record⟩ := streamed.origin
  have others : ∀ words : List Message, (words.map Message.bytes).filter (fun m => !carriesBlock m) =
      (words.filter Message.lasting).map Message.bytes := by
    intro words
    rw [List.filter_map]
    congr 2
    funext word
    exact lasting_block word
  refine ⟨(spoken ops).map Message.bytes, words.map Message.bytes, ?_, part.map _, ?_, stream, ?_⟩
  · rcases opened with ⟨-, none_⟩ | ⟨-, hello⟩
    · rw [none_] at record
      exact Or.inl record
    · rw [hello] at record
      exact Or.inr record
  · rw [others, others, lasting]
  · intro m member
    obtain ⟨word, inside, same⟩ := List.mem_map.mp member
    have listed : m ∈ c.enqueued := by
      rw [record, List.map_append]
      exact List.mem_append_right _ member
    obtain ⟨message, equal, fit⟩ := truthful.said id c found m listed
    refine ⟨message, equal, ?_, fit⟩
    cases message with
    | handshake torrent peerId =>
      exact absurd (same.trans equal) (wired_other (streamed.wired word inside) torrent peerId)
    | _ => trivial

end Sending

section Receiving

variable {t : TorrentFile} {s : Session} {a b : PeerConnection} {said kept : List Bytes} {pm : PeerManager}
  (voice : Voice t s a said kept)

include voice

theorem Voice.word {msg : Bytes} (member : msg ∈ kept.map body) : ∃ message : Message, msg = body message.bytes ∧
    Message.Wired message ∧ Fit t s.pieces (onDisk s.disk s.store) message := by
  obtain ⟨m, inside, same⟩ := List.mem_map.mp member
  obtain ⟨message, equal, wired, fit⟩ := voice.fits m (voice.part.subset inside)
  exact ⟨message, by rw [← same, equal], wired, fit⟩

theorem Voice.frames (wide : s.pieces.have_.bits ≤ 8 * (2 ^ 20 - 1)) : (kept.map body).map frame = kept := by
  rw [List.map_map]
  refine (List.map_congr_left (fun m member => ?_)).trans (List.map_id kept)
  obtain ⟨message, equal, wired, fit⟩ := voice.fits m (voice.part.subset member)
  rw [equal]
  exact (fit.framed wide wired).1.symm

theorem Voice.framed (wide : s.pieces.have_.bits ≤ 8 * (2 ^ 20 - 1)) :
    Framed (2 ^ 20) kept.flatten (kept.map body) [] := by
  refine ⟨?_, ?_⟩
  · rw [voice.frames wide, List.append_nil]
  · intro msg member
    obtain ⟨message, same, wired, fit⟩ := voice.word member
    rw [same]
    exact (fit.framed wide wired).2

/-- The receiver has handled the first messages of the stream, and its buffer and what is still under way are
the others. -/
theorem Voice.heard (wide : s.pieces.have_.bits ≤ 8 * (2 ^ 20 - 1)) (size : (ownHandshake s.peers).length = 68)
    (heard : Heard pm b) (wire : b.sock.received <+: a.sock.sent) :
    ∃ rest tail, kept.map body = b.handled ++ rest ∧ b.readBuffer ++ tail = (rest.map frame).flatten ∧
      b.sock.received ++ tail = a.sock.sent ++ unsent a := by
  obtain ⟨gap, sent⟩ := wire
  have whole : b.sock.received ++ (gap ++ unsent a) = ownHandshake s.peers ++ kept.flatten := by
    rw [← List.append_assoc, sent, voice.stream]
  have later : b.sock.received.drop 68 ++ (gap ++ unsent a) = kept.flatten := by
    have dropped := congrArg (List.drop 68) whole
    rw [List.drop_append_of_le_length heard.whole, List.drop_left' size] at dropped
    exact dropped
  have reading := heard.framed.more (gap ++ unsent a)
  have sending := voice.framed wide
  rw [later] at reading
  obtain ⟨rest, split⟩ := reading.leads (by decide) sending (Or.inl (Or.inl (by decide)))
  refine ⟨rest, gap ++ unsent a, split.symm, ?_, ?_⟩
  · have both : (b.handled.map frame).flatten ++ (b.readBuffer ++ (gap ++ unsent a)) =
        (b.handled.map frame).flatten ++ (rest.map frame).flatten := by
      rw [← reading.split, sending.split, ← split, List.map_append, List.flatten_append, List.append_nil]
    exact List.append_cancel_left both
  · rw [← List.append_assoc, sent]

theorem Voice.complete (wide : s.pieces.have_.bits ≤ 8 * (2 ^ 20 - 1)) (size : (ownHandshake s.peers).length = 68)
    (heard : Heard pm b) (unfinished : Unfinished (2 ^ 20) b.readBuffer) (empty : a.writeBuffer = [])
    (arrived : b.sock.received = a.sock.sent) : b.handled = kept.map body := by
  have whole : b.sock.received = ownHandshake s.peers ++ kept.flatten := by
    rw [arrived, ← voice.stream, unsent, empty, List.flatten_nil, List.drop_nil, List.append_nil]
  have reading := heard.framed
  rw [whole, List.drop_left' size] at reading
  exact (reading.unique (by decide) (Or.inl unfinished) (voice.framed wide) (Or.inl (Or.inl (by decide)))).1

omit voice in
theorem readMessages_smooth {id count : Nat} (narrow : count < 2 ^ 32 - 7) {rest : List Bytes}
    {tail : Bytes} (fuel : Nat)
    {pm : PeerManager} {out : List PeerEvent} {c : PeerConnection} (found : pm.conns.find? id = some c)
    (believed : Believed count c) (split : c.readBuffer ++ tail = (rest.map frame).flatten)
    (short : ∀ msg ∈ rest, msg.length ≤ 2 ^ 20)
    (accepts : ∀ msg ∈ rest, ∀ (c : PeerConnection) (frequency : List Nat) (out : List PeerEvent),
      c.hasPieces.bits = count → c.hasPieces.Tidy → (c.handle id frequency out msg).thrown = none) :
    (readMessages id fuel pm out).2.2 = false := by
  induction fuel generalizing pm out c rest with
  | zero => rfl
  | succ fuel ih =>
    rw [readMessages, found, Option.map_some]
    cases extracted : extractMessage c.readBuffer with
    | error problem =>
      -- the next length is that of a message of the stream
      have oversized := (extractMessage_oversized extracted).more tail
      rw [split] at oversized
      cases rest with
      | nil => exact absurd oversized.1 (by decide)
      | cons msg rest =>
        exact absurd oversized (frame_complete (by decide) (short msg (List.mem_cons_self ..)) _).2
    | ok front =>
      cases front with
      | none => rfl
      | some pair =>
        obtain ⟨msg, left⟩ := pair
        obtain ⟨whole, small⟩ := extractMessage_whole extracted
        rw [whole, List.append_assoc] at split
        cases rest with
        | nil =>
          have size := congrArg List.length split
          rw [List.length_append, frame_length] at size
          exact absurd size (by simp)
        | cons next rest =>
          have listed : next ∈ next :: rest := List.mem_cons_self ..
          obtain ⟨same, onward⟩ := frame_injective (by decide) small (short next listed) split
          subst same
          dsimp only
          generalize popping : { pm with conns := pm.conns.modify id (fun c =>
            { c with readBuffer := left, handled := c.handled ++ [msg] }) } = popped
          have there : popped.conns.find? id =
              some { c with readBuffer := left, handled := c.handled ++ [msg] } := by
            rw [← popping, Table.find_modify, if_pos rfl, found, Option.map_some]
          obtain ⟨after, threw⟩ := handleMessage_found out msg there
          have believes := believed.message id popped.pieceFrequency out left msg
          have reading := effect_reading (handle_effect
            { c with readBuffer := left, handled := c.handled ++ [msg] } id popped.pieceFrequency out msg)
          have fine := accepts msg listed { c with readBuffer := left, handled := c.handled ++ [msg] }
            popped.pieceFrequency out believed.bits (believed.tidy narrow)
          rw [fine] at threw
          generalize popped.handleMessage id msg out = result at after threw
          obtain ⟨later, events, thrown⟩ := result
          dsimp only at threw
          subst threw
          refine ih after believes ?_ (fun other member => short other (List.mem_cons_of_mem _ member))
            (fun other member => accepts other (List.mem_cons_of_mem _ member))
          rw [reading.buffer]
          exact onward

end Receiving

section Learning

variable {t : TorrentFile} {pieces : PieceManager} {array : Bytes} (narrow : pieces.have_.bits < 2 ^ 32 - 7)

theorem Fits.tail {m : Bytes} {messages : List Bytes} (fits : Fits t pieces array (m :: messages)) :
    Fits t pieces array messages :=
  fun other member => fits other (List.mem_cons_of_mem _ member)

include narrow

theorem Fits.believed {messages : List Bytes} (fits : Fits t pieces array messages) {known : Belief}
    (width : known.pieces.bits = pieces.have_.bits) (tidy : known.pieces.Tidy)
    (true_ : ∀ i, known.pieces.get i = true → pieces.have_.get i = true) (i : Nat)
    (held : ((messages.map body).foldl Belief.learn known).pieces.get i = true) : pieces.have_.get i = true := by
  induction messages generalizing known with
  | nil => exact true_ i held
  | cons m messages ih =>
    obtain ⟨message, same, wired, fit⟩ := fits m (List.mem_cons_self ..)
    rw [List.map_cons, List.foldl_cons, same] at held
    refine ih fits.tail ?_ ?_ ?_ held
    · rw [Belief.learn_bits]
      exact width
    · exact Belief.learn_tidy (by rw [width]; exact narrow) tidy _
    · exact fun j => fit.believed narrow wired width tidy true_ j

theorem Fits.settled {messages : List Bytes} (fits : Fits t pieces array messages) {known : Belief}
    (width : known.pieces.bits = pieces.have_.bits) (tidy : known.pieces.Tidy)
    (done : known.settled = true) (i : Nat) :
    ((messages.map body).foldl Belief.learn known).pieces.get i = true ↔
      known.pieces.get i = true ∨ i ∈ haves messages := by
  induction messages generalizing known with
  | nil => simp [haves]
  | cons m messages ih =>
    obtain ⟨message, same, wired, fit⟩ := fits m (List.mem_cons_self ..)
    obtain ⟨still, more⟩ := fit.settled narrow wired width tidy done
    have same_width : (known.learn (body message.bytes)).pieces.bits = pieces.have_.bits := by
      rw [Belief.learn_bits]
      exact width
    have step := ih fits.tail same_width (Belief.learn_tidy (by rw [width]; exact narrow) tidy _) still
    rw [List.map_cons, List.foldl_cons, same, step, more i, haves, haves, List.filterMap_cons, Bool.or_eq_true,
      decide_eq_true_eq]
    cases named : haveIndex message.bytes with
    | none => simp
    | some index =>
      simp only [Option.some.injEq, List.mem_cons]
      constructor
      · rintro ((here | before) | later)
        · exact Or.inr (Or.inl here.symm)
        · exact Or.inl before
        · exact Or.inr (Or.inr later)
      · rintro (before | here | later)
        · exact Or.inl (Or.inr before)
        · exact Or.inl (Or.inl here.symm)
        · exact Or.inr later

omit narrow

theorem Fits.choking {messages : List Bytes} (fits : Fits t pieces array messages) (known : Belief)
    (open_ : known.choking = false ∨ Message.bytes .unchoke ∈ messages) :
    ((messages.map body).foldl Belief.learn known).choking = false := by
  induction messages generalizing known with
  | nil => exact open_.resolve_right List.not_mem_nil
  | cons m messages ih =>
    obtain ⟨message, same, wired, fit⟩ := fits m (List.mem_cons_self ..)
    rw [List.map_cons, List.foldl_cons, same]
    refine ih fits.tail _ ?_
    rcases open_ with before | member
    · exact Or.inl (fit.choking wired known (Or.inl before))
    · rcases List.mem_cons.mp member with here | later
      · exact Or.inl (fit.choking wired known (Or.inr (same.symm.trans here.symm)))
      · exact Or.inr later

theorem learn_block (known : Belief) {m : Bytes} (block : carriesBlock m = true) : known.learn (body m) = known := by
  have kind : m[4]? = some msgPiece := of_decide_eq_true block
  have shape : body m = msgPiece :: m.drop 5 := by
    obtain ⟨inside, value⟩ := List.getElem?_eq_some_iff.mp kind
    rw [body, List.drop_eq_getElem_cons inside, value]
  rw [shape]
  rfl

theorem learn_others (messages : List Bytes) (known : Belief) :
    (messages.map body).foldl Belief.learn known =
      ((messages.filter (fun m => !carriesBlock m)).map body).foldl Belief.learn known := by
  induction messages generalizing known with
  | nil => rfl
  | cons m messages ih =>
    cases block : carriesBlock m with
    | true =>
      rw [List.filter_cons_of_neg (by simp [block]), List.map_cons, List.foldl_cons, learn_block known block]
      exact ih known
    | false =>
      rw [List.filter_cons_of_pos (by simp [block]), List.map_cons, List.map_cons, List.foldl_cons, List.foldl_cons]
      exact ih _

end Learning

section Meeting

variable {sha1 : Bytes → Bytes} {kernel : Kernel} {t : TorrentFile} {s : Session} {a b : PeerConnection}
  {said kept : List Bytes} {pm : PeerManager}

theorem used_peerId (used : Used pm) : pm.peerId.length = 20 := by
  induction used with
  | start pm begins =>
    obtain ⟨torrent, peerId, listenSock, maxPeers, created⟩ := begins
    unfold PeerManager.create at created
    split at created
    · cases created
    · rename_i size
      cases created
      exact not_not.mp size
  | next pm after op earlier moved ih =>
    cases moved
    rw [(perform_orderly op (used_listening earlier).orderly).peerId]
    exact ih

theorem heard_infoHash (heard : Heard pm b) : pm.torrent.infoHash.length = 20 := by
  obtain ⟨-, -, -, same, -⟩ := of_decide_eq_true heard.verified
  rw [← same, Splice.slice_length]
  rw [List.length_take]
  have whole := heard.whole
  omega

theorem handshake_length {torrent : TorrentFile} {peerId : Bytes} (hash : torrent.infoHash.length = 20)
    (name : peerId.length = 20) : (Message.bytes (.handshake torrent peerId)).length = 68 := by
  have protocol : (ascii "BitTorrent protocol").length = 19 := rfl
  simp only [Message.bytes, buildHandshake, List.length_cons, List.length_append, List.length_replicate,
    protocol, hash,
    name]

theorem Voice.opened (voice : Voice t s a said kept) {before rest : List Bytes} {raw : Bytes}
    (split : a.enqueued = before ++ Message.bytes (.bitfield raw) :: rest)
    (opening : Opening False (ownHandshake s.peers) before) :
    ∃ pings, (∀ m ∈ pings, m = Message.bytes .keepAlive) ∧ said = pings ++ Message.bytes (.bitfield raw) :: rest := by
  obtain ⟨pings, only, -, shape⟩ := opening
  have silent : ∀ word : Message, Message.Wired word → word.bytes ≠ ownHandshake s.peers :=
    fun word wired => wired_other wired _ _
  refine ⟨pings, only, ?_⟩
  rcases voice.enqueued with plain | greeted
  · rcases shape with first | later
    · rw [← plain, split, first]
    · have member : ownHandshake s.peers ∈ said := by
        rw [← plain, split, later]
        exact List.mem_append_left _ (List.mem_cons_self ..)
      obtain ⟨message, same, wired, -⟩ := voice.fits _ member
      exact absurd same.symm (silent message wired)
  · rw [greeted] at split
    rcases shape with first | later
    · rw [first] at split
      cases pings with
      | nil => exact absurd (List.cons.inj split).1.symm (silent (.bitfield raw) trivial)
      | cons ping pings =>
        have same := (List.cons.inj split).1.trans (only ping (List.mem_cons_self ..))
        exact absurd same.symm (silent .keepAlive trivial)
    · rw [later] at split
      exact (List.cons.inj split).2

theorem learn_pings {pings : List Bytes} (only : ∀ m ∈ pings, m = Message.bytes .keepAlive) (known : Belief) :
    (pings.map body).foldl Belief.learn known = known := by
  induction pings with
  | nil => rfl
  | cons ping pings ih =>
    rw [List.map_cons, List.foldl_cons, only ping (List.mem_cons_self ..)]
    exact ih (fun m member => only m (List.mem_cons_of_mem _ member))

theorem Fits.bitfield {pieces : PieceManager} {array : Bytes} {messages : List Bytes} {field : Bitfield}
    (fits : Fits t pieces array messages) (member : Message.bytes (.bitfield field.bytes) ∈ messages)
    (bits : field.bits = pieces.have_.bits) : field.Tidy := by
  obtain ⟨message, same, wired, fit⟩ := fits _ member
  have kind : body message.bytes = msgBitfield :: field.bytes := by
    rw [← same, Message.bytes, body_buildMessage]
  have other : ∀ (id : UInt8) (payload : Bytes), message.bytes = buildMessage id payload →
      id = msgBitfield ∧ payload = field.bytes := by
    intro id payload built
    rw [built, body_buildMessage] at kind
    exact List.cons.inj kind
  cases message with
  | handshake torrent peerId => exact wired.elim
  | bitfield raw =>
    obtain ⟨given, bytes, width, tidy, -⟩ := fit
    have equal : given = field := by
      cases given
      cases field
      exact Bitfield.mk.injEq .. ▸ ⟨width.trans bits.symm, bytes.symm.trans (other _ _ rfl).2⟩
    rw [← equal]
    exact tidy
  | keepAlive => cases kind
  | choke => exact absurd (other _ _ rfl).1 (by decide)
  | unchoke => exact absurd (other _ _ rfl).1 (by decide)
  | interested => exact absurd (other _ _ rfl).1 (by decide)
  | have_ index => exact absurd (other _ _ rfl).1 (by decide)
  | request req => exact absurd (other _ _ rfl).1 (by decide)
  | piece index offset data => exact absurd (other _ _ rfl).1 (by decide)

theorem Voice.informed (voice : Voice t s a said kept) (narrow : s.pieces.have_.bits < 2 ^ 32 - 7)
    (informed : Informed False (ownHandshake s.peers) s.pieces.have_ a.enqueued) (p : Nat) :
    ((kept.map body).foldl Belief.learn (Belief.first s.pieces.have_.bits)).pieces.get p = s.pieces.have_.get p := by
  obtain ⟨before, field, rest, split, opening, bits, announced⟩ := informed
  obtain ⟨pings, only, shape⟩ := voice.opened split opening
  have fits := voice.fits
  have member : Message.bytes (.bitfield field.bytes) ∈ said := by
    rw [shape]
    exact List.mem_append_right _ (List.mem_cons_self ..)
  have tidy := fits.bitfield member bits
  have later : Fits t s.pieces (onDisk s.disk s.store) rest := by
    intro m inside
    apply fits
    rw [shape]
    exact List.mem_append_right _ (List.mem_cons_of_mem _ inside)
  have told : (Belief.first s.pieces.have_.bits).learn (body (Message.bytes (.bitfield field.bytes))) =
      ⟨field, true, true⟩ := by
    have parsed := tidy.round_trip (by rw [bits]; exact narrow)
    rw [bits] at parsed
    rw [Message.bytes, body_buildMessage]
    show (Belief.first s.pieces.have_.bits).bitfield field.bytes = ⟨field, true, true⟩
    have fresh : (Belief.first s.pieces.have_.bits).pieces.bits = s.pieces.have_.bits := rfl
    rw [Belief.bitfield, fresh, parsed]
    rfl
  have learnt : (kept.map body).foldl Belief.learn (Belief.first s.pieces.have_.bits) =
      (rest.map body).foldl Belief.learn ⟨field, true, true⟩ := by
    rw [learn_others kept, voice.others, ← learn_others said, shape, List.map_append, List.foldl_append,
      learn_pings only, List.map_cons, List.foldl_cons, told]
  rw [learnt, Bool.eq_iff_iff, later.settled narrow bits tidy rfl p]
  exact (announced.exact p).symm

theorem Voice.delivered (voice : Voice t s a said kept) (wide : s.pieces.have_.bits ≤ 8 * (2 ^ 20 - 1))
    (size : (ownHandshake s.peers).length = 68) (heard : Heard pm b) (wire : b.sock.received <+: a.sock.sent) :
    (b.handled.map frame).Sublist said := by
  obtain ⟨rest, tail, split, -, -⟩ := voice.heard wide size heard wire
  refine List.Sublist.trans ?_ voice.part
  rw [← voice.frames wide, split, List.map_append]
  exact List.sublist_append_left _ _

theorem Voice.listed (voice : Voice t s a said kept) : said.Sublist a.enqueued := by
  rcases voice.enqueued with plain | greeted
  · rw [plain]
  · rw [greeted]
    exact List.sublist_cons_self _ _

theorem Voice.believed (voice : Voice t s a said kept) (wide : s.pieces.have_.bits ≤ 8 * (2 ^ 20 - 1))
    (size : (ownHandshake s.peers).length = 68) (heard : Heard pm b) (wire : b.sock.received <+: a.sock.sent)
    (believed : Believed s.pieces.have_.bits b) (p : Nat) (held : b.hasPieces.get p = true) :
    s.pieces.have_.get p = true := by
  have narrow : s.pieces.have_.bits < 2 ^ 32 - 7 := by omega
  have handled := voice.delivered wide size heard wire
  have fits : Fits t s.pieces (onDisk s.disk s.store) (b.handled.map frame) :=
    fun m member => voice.fits m (handled.subset member)
  have nothing : ∀ p, (Belief.first s.pieces.have_.bits).pieces.get p = true → s.pieces.have_.get p = true := by
    intro p set
    exact absurd set (by simp [Belief.first])
  refine fits.believed narrow rfl (Bitfield.ofBits_tidy _ narrow) nothing p ?_
  rw [map_body_frame, ← believed]
  exact held

/-- Whatever arrives next of what the sender has sent, the receiver takes it without an error. -/
theorem Voice.smooth (voice : Voice t s a said kept) (wide : s.pieces.have_.bits ≤ 8 * (2 ^ 20 - 1))
    (size : (ownHandshake s.peers).length = 68) (heard : Heard pm b) (believed : Believed s.pieces.have_.bits b)
    {j : Nat} (found : pm.conns.find? j = some b) {env : Env} {chunk : Bytes}
    (ready : env.recv b.sock.fd = .data chunk)
    (some_ : chunk.take 16384 ≠ []) (further : b.sock.received ++ chunk.take 16384 <+: a.sock.sent)
    (out : List PeerEvent) : (readConnection env pm j b out).2.2 = false := by
  have narrow : s.pieces.have_.bits < 2 ^ 32 - 7 := by omega
  rw [readConnection, ready]
  dsimp only
  rw [if_neg some_]
  have more := heard.receive (chunk.take 16384) (env.clock (.receive b.sock.fd))
  obtain ⟨later, under, ahead, buffer, -⟩ := voice.heard wide size more further
  have among : ∀ msg ∈ later, msg ∈ kept.map body := by
    intro msg member
    rw [ahead]
    exact List.mem_append_right _ member
  have grown : Believed s.pieces.have_.bits { b with
      sock := { b.sock with received := b.sock.received ++ chunk.take 16384 }
      readBuffer := b.readBuffer ++ chunk.take 16384
      lastReceived := env.clock (.receive b.sock.fd) } := believed.same ⟨rfl, rfl⟩
  refine readMessages_smooth narrow _ ?_ grown buffer ?_ ?_
  · rw [Table.find_modify, if_pos rfl, found, Option.map_some]
  · exact fun msg member => (voice.framed wide).short msg (among msg member)
  · intro msg member c frequency out width tidy
    obtain ⟨message, equal, wired, fit⟩ := voice.word (among msg member)
    rw [equal]
    exact fit.accepted narrow wired c width tidy j frequency out

theorem Voice.unchokes (voice : Voice t s a said kept) (told : Message.bytes .unchoke ∈ a.enqueued) (known : Belief) :
    ((kept.map body).foldl Belief.learn known).choking = false := by
  have among : Message.bytes .unchoke ∈ said := by
    rcases voice.enqueued with plain | hailed
    · rw [← plain]
      exact told
    · rw [hailed] at told
      exact (List.mem_cons.mp told).resolve_left (@wired_other .unchoke trivial _ _)
  rw [learn_others, voice.others, ← learn_others]
  exact voice.fits.choking known (Or.inr among)

theorem within_meeting {peerKernel : Kernel} {first second : Sys}
    (within : ReachableWithin (step sha1 kernel) (Begins sha1 kernel t) HailsWhole first)
    (reached : Reached sha1 peerKernel t second) (few : first.session.peers.promoted < 2 ^ 32)
    (wide : t.pieces.length ≤ 8 * (2 ^ 20 - 1)) {i j : Nat} (ours : first.session.peers.conns.find? i = some a)
    (theirs : second.session.peers.conns.find? j = some b) :
    first.session.pieces.have_.bits = t.pieces.length ∧ (ownHandshake first.session.peers).length = 68 ∧
      ∃ said kept, Voice t first.session a said kept := by
  have valid : PieceManager.Valid t first.session.pieces := (reached_custody within.reachable).sound.valid
  obtain ⟨sender, our⟩ := reached_used within.reachable
  obtain ⟨used, same⟩ := reached_used reached
  refine ⟨?_, ?_, within_voice within few (by rw [Nat.mod_eq_of_lt (by omega)]; omega) ours⟩
  · rw [valid.bits, valid.pieceCount, Nat.mod_eq_of_lt (by omega)]
  · apply handshake_length _ (used_peerId sender)
    rw [our, ← same]
    exact heard_infoHash ((used_listening used).heard j b theirs)

end Meeting

/-- Two clients of one torrent on the ends of one connection, in whatever states their runs have brought them to.
If the first has cut no handshake short, what the second has handled are messages the first enqueued, in order;
each of them is true and well formed; the second takes what comes next without an error, however it is cut; it
believes only in pieces the first has; and once everything has arrived it knows exactly those pieces, and that it
may ask for them. -/
theorem clients_understand (sha1 : Bytes → Bytes) (kernel peerKernel : Kernel) (t : TorrentFile) (first second : Sys)
    (within : ReachableWithin (step sha1 kernel) (Begins sha1 kernel t) HailsWhole first)
    (reached : Reached sha1 peerKernel t second) (few : first.session.peers.promoted < 2 ^ 32)
    (wide : t.pieces.length ≤ 8 * (2 ^ 20 - 1)) (i j : Nat) (a b : PeerConnection)
    (ours : first.session.peers.conns.find? i = some a) (theirs : second.session.peers.conns.find? j = some b)
    (wire : b.sock.received <+: a.sock.sent) :
    (b.handled.map frame).Sublist a.enqueued ∧
    (∀ msg ∈ b.handled, ∃ message : Message, msg = body message.bytes ∧
      Fit t first.session.pieces (onDisk first.session.disk first.session.store) message) ∧
    (∀ env chunk out, env.recv b.sock.fd = .data chunk → chunk.take 16384 ≠ [] →
      b.sock.received ++ chunk.take 16384 <+: a.sock.sent →
      (readConnection env second.session.peers j b out).2.2 = false) ∧
    (∀ p, b.hasPieces.get p = true → first.session.pieces.have_.get p = true) ∧
    (.joined i ∉ first.phase.queue → a.writeBuffer = [] → b.sock.received = a.sock.sent →
      (∀ p, b.hasPieces.get p = first.session.pieces.have_.get p) ∧
      (a.amChoking = false → b.peerChoking = false)) := by
  obtain ⟨count, size, said, kept, voice⟩ := within_meeting within reached few wide ours theirs
  have narrow : first.session.pieces.have_.bits < 2 ^ 32 - 7 := by omega
  obtain ⟨used, same⟩ := reached_used reached
  have listening := used_listening used
  have heard := listening.heard j b theirs
  have believed : Believed first.session.pieces.have_.bits b := by
    have taught := (used_taught used).2 j b theirs
    rw [same, Nat.mod_eq_of_lt (by omega), ← count] at taught
    exact taught
  have limit : first.session.pieces.have_.bits ≤ 8 * (2 ^ 20 - 1) := by omega
  obtain ⟨rest, tail, split, -, -⟩ := voice.heard limit size heard wire
  have listed : ∀ msg ∈ b.handled, msg ∈ kept.map body := by
    intro msg member
    rw [split]
    exact List.mem_append_left _ member
  refine ⟨(voice.delivered limit size heard wire).trans voice.listed, ?_, ?_, ?_, ?_⟩
  · intro msg member
    obtain ⟨message, equal, -, fit⟩ := voice.word (listed msg member)
    exact ⟨message, equal, fit⟩
  · intro env chunk out ready some_ further
    exact voice.smooth limit size heard believed theirs ready some_ further out
  · intro p held
    exact voice.believed limit size heard wire believed p held
  · intro greeted empty arrived
    have all := voice.complete limit size heard (listening.unfinished j b theirs) empty arrived
    rw [Believed, all] at believed
    refine ⟨?_, ?_⟩
    · intro p
      have informed := informed_regardless within.reachable few ours greeted
      rw [← voice.informed narrow informed p, ← believed]
      rfl
    · intro unchoked
      have open_ := voice.unchokes (reached_welcomed within.reachable ours unchoked)
        (Belief.first first.session.pieces.have_.bits)
      rw [← believed] at open_
      exact open_

section Example

def takesHello (env : Env) (p : PendingOutbound) : Bool :=
  match env.send p.sock.fd with
  | .accepted count => decide (100 ≤ count)
  | _ => false

def hailsAll (sys : Sys) : Input → Bool
  | .poll _ _ env => sys.session.peers.outbound.all (takesHello env) &&
      decide ((buildHandshake sys.session.peers.torrent sys.session.peers.peerId).length ≤ 100)
  | _ => true

theorem takesHello_accepts {env : Env} {p : PendingOutbound} (takes : takesHello env p = true) :
    ∃ count, env.send p.sock.fd = .accepted count ∧ 100 ≤ count := by
  unfold takesHello at takes
  split at takes
  · exact ⟨_, ‹_›, of_decide_eq_true takes⟩
  · cases takes

theorem hailsAll_hails (sys : Sys) (input : Input) (hails : hailsAll sys input = true) : HailsWhole sys input := by
  cases input with
  | poll order revents env =>
    obtain ⟨all, short⟩ := Bool.and_eq_true_iff.mp hails
    intro i p located connecting ready fine
    have listed : sys.session.peers.outbound[i]? = some p := located
    obtain ⟨count, accepts, large⟩ := takesHello_accepts (List.all_eq_true.mp all p (List.mem_of_getElem? listed))
    exact ⟨count, accepts, Nat.le_trans (of_decide_eq_true short) large⟩
  | _ => trivial

def playsAs (peerId : Bytes) (initialPeers : List Peer) (file : Bytes) (inputs : List Input) : Option Sys :=
  (create spotDigest wholeKernel oneByteWanted peerId (some 3) [] initialPeers
    { quietEnv with dial := fun _ => .started 6, inetPton := fun _ => true } ⟨fun _ => file, 0, []⟩).toOption.bind
    (fun s => Transition.run (guarded (step spotDigest wholeKernel) hailsAll) ⟨s, .polling, [], []⟩ inputs)

theorem playsAs_within {peerId file : Bytes} {initialPeers : List Peer} {inputs : List Input} {sys : Sys}
    (ran : playsAs peerId initialPeers file inputs = some sys) :
    ReachableWithin (step spotDigest wholeKernel) (Begins spotDigest wholeKernel oneByteWanted) HailsWhole sys := by
  obtain ⟨s, made, moves⟩ := Option.bind_eq_some_iff.mp ran
  have begins : ReachableWithin (step spotDigest wholeKernel) (Begins spotDigest wholeKernel oneByteWanted) HailsWhole
      ⟨s, .polling, [], []⟩ := .start _ (created_begins ⟨_, oneByteWanted_accepted⟩ (Torrent.toOption_ok made))
  exact begins.guarded hailsAll_hails moves

def sendsOne : List Input :=
  .poll [] (fun i => if i = 1 then pollOut else 0) { quietEnv with send := fun _ => .accepted 100 } :: roundEnd

def gainStream : Bytes :=
  [0, 0, 0, 2, 5, 0, 0, 0, 0, 1, 1, 0, 0, 0, 1, 2] ++
    [0, 0, 0, 13, 6, 0, 0, 0, 0, 0, 0, 0, 0, 0, 0, 0, 1] ++ [0, 0, 0, 5, 4, 0, 0, 0, 0]

def hearsGain : List Input :=
  arrives 0 (ascii "g") [] :: roundEnd ++
    [arrives 1 (ascii "g") (Wire.buildHandshake oneByteWanted (List.replicate 20 7)), .dispatch (fun _ => [])] ++
      roundEnd ++
    [arrives 1 (ascii "g") (gainStream.take 30)] ++ [.dispatch (fun _ => [])] ++ roundEnd ++
    [arrives 1 (ascii "g") (gainStream.drop 30)]

end Example

/-- Two clients of which the first has the piece, and the second has heard of it. -/
theorem clients_understand_one_piece :
    ∃ (first second : Sys) (a b : PeerConnection), first.session.peers.conns.find? 0 = some a ∧
      second.session.peers.conns.find? 0 = some b ∧ b.sock.received = a.sock.sent ∧
      first.session.pieces.have_.get 0 = true ∧ (∀ p, b.hasPieces.get p = first.session.pieces.have_.get p) ∧
      b.peerChoking = false := by
  have told : (playsAs (List.replicate 20 7) [] [] (oneGain ++ roundEnd ++
      (List.replicate 6 sendsOne).flatten)).bind (fun sys => (sys.session.peers.conns.find? 0).map (fun c => decide
        (sys.phase = .polling ∧ sys.session.peers.promoted = 1 ∧ sys.session.pieces.have_.get 0 = true ∧
          c.sock.sent = Wire.buildHandshake oneByteWanted (List.replicate 20 7) ++ gainStream ∧ c.writeBuffer = [] ∧
          c.amChoking = false))) = some true := by
    decide +kernel
  have heard : (playsAs (List.replicate 20 8) [] [] hearsGain).bind (fun sys =>
      (sys.session.peers.conns.find? 0).map (fun c => c.sock.received)) =
      some (Wire.buildHandshake oneByteWanted (List.replicate 20 7) ++ gainStream) := by
    decide +kernel
  obtain ⟨first, ran, shown⟩ := Option.bind_eq_some_iff.mp told
  obtain ⟨a, ours, seen⟩ := Option.map_eq_some_iff.mp shown
  obtain ⟨phase, count, held, sent, empty, open_⟩ := of_decide_eq_true seen
  obtain ⟨second, listened, shown⟩ := Option.bind_eq_some_iff.mp heard
  obtain ⟨b, theirs, received⟩ := Option.map_eq_some_iff.mp shown
  have arrived : b.sock.received = a.sock.sent := received.trans sent.symm
  have few : first.session.peers.promoted < 2 ^ 32 := by
    rw [count]
    decide
  have greeted : .joined 0 ∉ first.phase.queue := by
    rw [phase]
    exact List.not_mem_nil
  obtain ⟨pieces, unchoked⟩ := (clients_understand spotDigest wholeKernel wholeKernel oneByteWanted first second
    (playsAs_within ran) (playsAs_within listened).reachable few (by decide) 0 0 a b ours theirs
    (by rw [arrived])).2.2.2.2 greeted empty arrived
  exact ⟨first, second, a, b, ours, theirs, arrived, held, pieces, unchoked open_⟩

end TorrentPeer.Session
