import TorrentPeer.Core.PieceSets
import TorrentPeer.Runtime.Streams

/-! What a connection believes about its peer is what the messages it has handled say, and nothing else
moves it. -/

namespace TorrentPeer.Bitfield

def Tidy (field : Bitfield) : Prop := ∃ pieces, Represents field field.bits pieces

theorem ofBits_tidy (bits : Nat) (narrow : bits < 2 ^ 32 - 7) : (ofBits bits).Tidy :=
  ⟨_, build_represents narrow none rfl⟩

theorem fromBytes_tidy {raw : Bytes} {bits : Nat} {field : Bitfield} (narrow : bits < 2 ^ 32 - 7)
    (parsed : fromBytes raw bits = .ok field) : field.Tidy := by
  have represents := build_represents narrow (some raw) parsed
  rw [Tidy, represents.size]
  exact ⟨_, represents⟩

theorem Tidy.round_trip {field : Bitfield} (tidy : field.Tidy) (narrow : field.bits < 2 ^ 32 - 7) :
    fromBytes field.bytes field.bits = .ok field := by
  obtain ⟨pieces, represents⟩ := tidy
  exact represents.round_trip narrow

theorem Tidy.gain {field : Bitfield} (tidy : field.Tidy) (narrow : field.bits < 2 ^ 32 - 7) {i : Nat}
    (inside : i < field.bits) : ∃ after, field.set i = .ok after ∧ after.Tidy := by
  obtain ⟨pieces, represents⟩ := tidy
  obtain ⟨after, called, grown⟩ := represents.gain narrow i inside
  refine ⟨after, ?_, ?_⟩
  · unfold setCall at called
    split at called
    · rename_i stored
      rw [stored, (Prod.mk.inj called).1]
    · cases (Prod.mk.inj called).2
  · rw [Tidy, grown.size]
    exact ⟨_, grown⟩

theorem Tidy.set {field after : Bitfield} (tidy : field.Tidy) (narrow : field.bits < 2 ^ 32 - 7) {i : Nat}
    (stored : field.set i = .ok after) : after.Tidy := by
  obtain ⟨same, again, grown⟩ := tidy.gain narrow (set_bits field after i stored).2.1
  rw [stored] at again
  rw [Except.ok.inj again]
  exact grown

end TorrentPeer.Bitfield

namespace TorrentPeer.PeerConnection

open Wire BigEndian

/-- The pieces a peer is known to have, whether its Bitfield has come, and whether it chokes us. -/
structure Belief where
  pieces : Bitfield
  settled : Bool
  choking : Bool

def belief (c : PeerConnection) : Belief := ⟨c.hasPieces, c.gotBitfield, c.peerChoking⟩

namespace Belief

def have_ (known : Belief) (payload : Bytes) : Belief :=
  if payload.length ≠ 4 ∨ known.pieces.get (readBe32 payload) = true then known
  else { known with pieces := (known.pieces.setCall (readBe32 payload)).1 }

def bitfield (known : Belief) (payload : Bytes) : Belief :=
  if known.settled = true then known
  else { known with
    pieces := (Bitfield.fromBytes payload known.pieces.bits).toOption.getD known.pieces
    settled := true }

def learn (known : Belief) : Bytes → Belief
  | [] => known
  | id :: payload =>
    if id = msgHave then known.have_ payload
    else if id = msgBitfield then known.bitfield payload
    else if id = msgChoke then { known with choking := true }
    else if id = msgUnchoke then { known with choking := false }
    else known

def first (count : Nat) : Belief := ⟨Bitfield.ofBits count, false, true⟩

theorem learn_bits (known : Belief) (msg : Bytes) : (known.learn msg).pieces.bits = known.pieces.bits := by
  cases msg with
  | nil => rfl
  | cons id payload =>
    rw [learn]
    split
    · rw [have_]
      split
      · rfl
      · rw [Bitfield.setCall]
        cases stored : known.pieces.set (readBe32 payload) with
        | error problem => rfl
        | ok after => exact (Bitfield.set_bits _ _ _ stored).1
    · split
      · rw [bitfield]
        split
        · rfl
        · cases parsed : Bitfield.fromBytes payload known.pieces.bits with
          | error problem => rfl
          | ok field =>
            rw [Bitfield.fromBytes_ok _ _ _ parsed]
            rfl
      · split_ifs <;> rfl

theorem learn_tidy {known : Belief} (narrow : known.pieces.bits < 2 ^ 32 - 7) (tidy : known.pieces.Tidy)
    (msg : Bytes) :
    (known.learn msg).pieces.Tidy := by
  cases msg with
  | nil => exact tidy
  | cons id payload =>
    rw [learn]
    split
    · rw [have_]
      split
      · exact tidy
      · rw [Bitfield.setCall]
        cases stored : known.pieces.set (readBe32 payload) with
        | error problem => exact tidy
        | ok after => exact tidy.set narrow stored
    · split
      · rw [bitfield]
        split
        · exact tidy
        · cases parsed : Bitfield.fromBytes payload known.pieces.bits with
          | error problem => exact tidy
          | ok field => exact Bitfield.fromBytes_tidy narrow parsed
      · split_ifs <;> exact tidy

theorem learnt_bits (known : Belief) (messages : List Bytes) :
    (messages.foldl learn known).pieces.bits = known.pieces.bits := by
  induction messages generalizing known with
  | nil => rfl
  | cons msg messages ih => exact (ih (known.learn msg)).trans (known.learn_bits msg)

theorem learnt_tidy {known : Belief} (narrow : known.pieces.bits < 2 ^ 32 - 7) (tidy : known.pieces.Tidy)
    (messages : List Bytes) : (messages.foldl learn known).pieces.Tidy := by
  induction messages generalizing known with
  | nil => exact tidy
  | cons msg messages ih => exact ih (by rw [learn_bits]; exact narrow) (learn_tidy narrow tidy msg)

end Belief

section Handling

variable (c : PeerConnection) (id : Nat) (frequency : List Nat) (out : List PeerEvent)

theorem onHave_learns (payload : Bytes) : (c.onHave frequency out payload).conn.belief = c.belief.have_ payload := by
  show _ = if payload.length ≠ 4 ∨ c.hasPieces.get (readBe32 payload) = true then c.belief
    else { c.belief with pieces := (c.hasPieces.setCall (readBe32 payload)).1 }
  rw [onHave]
  split
  · rename_i bad
    rw [if_pos (Or.inl bad)]
  · rename_i good
    dsimp only
    split
    · rename_i outside
      have missing := Bitfield.get_outside c.hasPieces (readBe32 payload) outside
      have refused : c.hasPieces.setCall (readBe32 payload) =
          (c.hasPieces, some (.outOfRange (ascii "bitfield index"))) := by
        rw [Bitfield.setCall, Bitfield.set, if_pos outside]
      rw [if_neg (not_or.mpr ⟨good, Bool.eq_false_iff.mp missing⟩), refused]
      rfl
    · split
      · rename_i known
        rw [if_pos (Or.inr known)]
      · rename_i unknown
        rw [if_neg (not_or.mpr ⟨good, unknown⟩)]
        cases stored : c.hasPieces.set (readBe32 payload) with
        | error problem => simp only [belief, Bitfield.setCall, stored]
        | ok field => simp only [belief, Bitfield.setCall, stored]

theorem onBitfield_learns (payload : Bytes) :
    (c.onBitfield frequency out payload).conn.belief = c.belief.bitfield payload := by
  show _ = if c.gotBitfield = true then c.belief
    else { c.belief with
      pieces := (Bitfield.fromBytes payload c.hasPieces.bits).toOption.getD c.hasPieces
      settled := true }
  rw [onBitfield]
  split
  · rfl
  · dsimp only
    cases parsed : Bitfield.fromBytes payload c.hasPieces.bits with
    | error problem => rfl
    | ok field => rfl

theorem onRequest_learns (payload : Bytes) : (c.onRequest frequency out payload id).conn.belief = c.belief := by
  unfold onRequest
  dsimp only
  split_ifs <;> rfl

theorem onPiece_learns (payload : Bytes) : (c.onPiece frequency out payload id).conn.belief = c.belief := by
  unfold onPiece
  dsimp only
  split
  · rfl
  · split <;> rfl

theorem onCancel_learns (payload : Bytes) : (c.onCancel frequency out payload id).conn.belief = c.belief := by
  unfold onCancel
  dsimp only
  split_ifs
  · rfl
  · rfl
  · rfl
  · obtain ⟨_, _, shape⟩ := c.removeQueuedPiece_shape (readBe32 payload) (readBe32 (payload.drop 4))
      (readBe32 (payload.drop 8))
    rw [shape]
    rfl

theorem handle_learns (msg : Bytes) : (c.handle id frequency out msg).conn.belief = c.belief.learn msg := by
  cases msg with
  | nil => rfl
  | cons kind payload =>
    by_cases have_ : kind = msgHave
    · subst have_
      exact c.onHave_learns frequency out payload
    · by_cases field : kind = msgBitfield
      · subst field
        exact c.onBitfield_learns frequency out payload
      · rw [Belief.learn, if_neg have_, if_neg field, handle]
        split_ifs
        · rfl
        · rfl
        · rfl
        · rfl
        · exact c.onRequest_learns id frequency out payload
        · exact c.onPiece_learns id frequency out payload
        · exact c.onCancel_learns id frequency out payload
        · rfl

end Handling

def Believed (count : Nat) (c : PeerConnection) : Prop := c.belief = c.handled.foldl Belief.learn (Belief.first count)

theorem Believed.bits {count : Nat} {c : PeerConnection} (believed : Believed count c) :
    c.hasPieces.bits = count := by
  have width := congrArg (fun belief => belief.pieces.bits) believed
  exact width.trans (Belief.learnt_bits (Belief.first count) c.handled)

theorem Believed.tidy {count : Nat} {c : PeerConnection} (believed : Believed count c) (narrow : count < 2 ^ 32 - 7) :
    c.hasPieces.Tidy := by
  have learnt := @Belief.learnt_tidy (Belief.first count) narrow (Bitfield.ofBits_tidy count narrow) c.handled
  rw [← believed] at learnt
  exact learnt

/-- Neither what was handled nor what is believed has changed. -/
structure SameMind (c after : PeerConnection) : Prop where
  handled : after.handled = c.handled
  belief : after.belief = c.belief

theorem Believed.same {count : Nat} {c after : PeerConnection} (believed : Believed count c)
    (same : SameMind c after) :
    Believed count after := by
  rw [Believed, same.belief, same.handled]
  exact believed

theorem drain_mind (c : PeerConnection) (result : Send) (now : Time) : SameMind c (c.drain result now).1 := by
  obtain ⟨_, _, _, _, _, shape⟩ := c.drain_shape result now
  rw [shape]
  exact ⟨rfl, rfl⟩

theorem Believed.message {count : Nat} {c : PeerConnection} (believed : Believed count c) (id : Nat)
    (frequency : List Nat) (out : List PeerEvent) (rest msg : Bytes) :
    Believed count ({ c with readBuffer := rest, handled := c.handled ++ [msg] }.handle id frequency out
      msg).conn := by
  have reading := PeerManager.effect_reading (handle_effect
    { c with readBuffer := rest, handled := c.handled ++ [msg] } id frequency out msg)
  rw [Believed, handle_learns, reading.handled, List.foldl_append]
  exact congrArg (fun known => known.learn msg) believed

end TorrentPeer.PeerConnection

namespace TorrentPeer.PeerManager

open Wire Transition PeerConnection

def Taught (count : Nat) (pm : PeerManager) : Prop :=
  pm.pieceCount = count ∧ ∀ id c, pm.conns.find? id = some c → Believed count c

section Acts

variable {count : Nat} {pm : PeerManager}

theorem Taught.update {next : PeerManager} (taught : Taught count pm) (width : next.pieceCount = pm.pieceCount)
    (same : ∀ id c, next.conns.find? id = some c → ∃ old, pm.conns.find? id = some old ∧ SameMind old c) :
    Taught count next := by
  refine ⟨width.trans taught.1, ?_⟩
  intro id c found
  obtain ⟨old, present, kept⟩ := same id c found
  exact (taught.2 id old present).same kept

theorem Taught.modify (taught : Taught count pm) (id : Nat) (change : PeerConnection → PeerConnection)
    (same : ∀ c, SameMind c (change c)) : Taught count { pm with conns := pm.conns.modify id change } := by
  refine taught.update rfl ?_
  intro other c found
  obtain ⟨old, present, unchanged | ⟨-, changed⟩⟩ := find_modify_some found
  · exact ⟨old, present, unchanged ▸ ⟨rfl, rfl⟩⟩
  · exact ⟨old, present, changed ▸ same old⟩

theorem newcomer_believed (pm : PeerManager) (sock : Socket) (peer : Peer) (now : Time) (answers : Bool) :
    Believed pm.pieceCount (newcomer pm sock peer now answers) := by
  cases answers <;> rfl

theorem act_taught {w next : World} {a : Act} (own : a.Own) (moves : act w a = some next)
    (taught : Taught count w.pm) :
    Taught count next.pm := by
  cases a with
  | send | ban | collect => cases own
  | promote sock peer now answers =>
    have width : next.pm.pieceCount = w.pm.pieceCount := by
      simp only [act, promote] at moves
      split at moves
      · cases moves
        split <;> rfl
      · cases moves
    refine ⟨width.trans taught.1, ?_⟩
    intro id c found
    rcases act_connection own moves found with
      ⟨old, present, same | ⟨serving, -⟩ | ⟨-, same⟩⟩ | ⟨-, -, -, -, sock, peer, now, answers, -, same⟩
    · rw [same]
      exact taught.2 id old present
    · cases serving
    · rw [same]
      exact (taught.2 id old present).same ⟨rfl, rfl⟩
    · rw [same, ← taught.1]
      exact newcomer_believed w.pm sock peer now answers
  | drain id result now =>
    cases moves
    exact taught.modify id _ (fun c => drain_mind c result now)
  | receive id chunk now =>
    cases moves
    exact taught.modify id _ (fun c => ⟨rfl, rfl⟩)
  | message id =>
    obtain ⟨handled, found, same⟩ := Option.map_eq_some_iff.mp moves
    obtain ⟨c, present, taken⟩ := Option.bind_eq_some_iff.mp found
    unfold nextMessage at taken
    split at taken
    · rename_i msg rest extracted
      rw [← same, ← Option.some.inj taken]
      refine ⟨taught.1, ?_⟩
      intro other after located
      obtain ⟨old, there, unchanged | ⟨-, changed⟩⟩ := find_modify_some located
      · rw [unchanged]
        exact taught.2 other old there
      · rw [changed]
        exact (taught.2 id c present).message id w.pm.pieceFrequency w.out rest msg
    · cases taken
  | drop id =>
    rcases act_drop moves with ⟨-, same⟩ | ⟨old, -, same⟩
    · rw [same]
      exact taught
    · rw [same]
      refine taught.update rfl ?_
      intro other c found
      rw [Table.find_erase] at found
      split at found
      · cases found
      · exact ⟨c, found, rfl, rfl⟩
  | keepAlives now =>
    cases moves
    refine taught.update rfl ?_
    intro id c found
    simp only [keepAlives, Table.find_update] at found
    obtain ⟨old, present, same⟩ := Option.map_eq_some_iff.mp found
    refine ⟨old, present, ?_⟩
    split at same <;> exact same ▸ ⟨rfl, rfl⟩
  | outside other =>
    cases moves
    exact taught

theorem acts_taught {w next : World} (moves : Acts w next) (taught : Taught count w.pm) : Taught count next.pm := by
  have step : ∀ (state after : World) a, Act.Own a → Taught count state.pm → act state a = some after →
      Taught count after.pm := fun _ _ _ own before moved => act_taught own moved before
  exact Reaches.preserves step moves taught

theorem perform_taught (op : Op) (room : Room pm) (taught : Taught count pm) : Taught count (pm.perform op).1 := by
  cases op with
  | buildFds order => exact taught
  | handleEvents env pfds => exact acts_taught (handleEvents_acts env pfds pm room).1 taught
  | addPeers env peers =>
    have apart := addPeers_apart env pm peers
    exact acts_taught (vets_acts (apart.vets [] pm)) taught
  | send id message now =>
    refine taught.modify id _ (fun c => ?_)
    cases message <;> exact ⟨rfl, rfl⟩
  | broadcastHave index =>
    refine taught.update rfl ?_
    intro id c found
    simp only [perform, broadcastHave, Table.find_update] at found
    obtain ⟨old, present, same⟩ := Option.map_eq_some_iff.mp found
    exact ⟨old, present, same ▸ ⟨rfl, rfl⟩⟩
  | ban host order =>
    by_cases already : host ∈ pm.banned
    · rw [perform, ban, if_pos already]
      exact taught
    · rw [perform, ban_fresh host order already]
      have listed : Taught count { pm with banned := insert host pm.banned } := taught
      exact acts_taught (vets_acts ((serves_dropAll { pm with banned := insert host pm.banned } []
        (pm.peersOf host order)).vets pm)) listed
  | expire id pending snubbed => exact taught.modify id _ (fun c => ⟨rfl, rfl⟩)

theorem used_taught (used : Used pm) : Taught (pm.torrent.pieces.length % 2 ^ 32) pm := by
  induction used with
  | start pm begins =>
    obtain ⟨torrent, peerId, listenSock, maxPeers, created⟩ := begins
    unfold create at created
    split at created
    · cases created
    · cases created
      exact ⟨rfl, fun id c found => absurd found (by simp)⟩
  | next pm after op earlier moved taught =>
    cases moved
    rw [(perform_orderly op (used_listening earlier).orderly).torrent]
    exact perform_taught op (used_room earlier) taught

end Acts

end TorrentPeer.PeerManager
