import TorrentPeer.Runtime.Outstanding
import TorrentPeer.Runtime.Descent
import TorrentPeer.Runtime.WriteQueue

/-! What waits in a peer's write queue: `queued_bytes` is its size, and the blocks in it
stay under a cap however many requests come in. -/

namespace TorrentPeer

open Wire Transition

namespace PeerConnection

def carriesBlock (m : Bytes) : Bool := decide (m[4]? = some msgPiece)

def queuedBlocks (c : PeerConnection) : Nat := ((c.writeBuffer.filter carriesBlock).map List.length).sum

/-- What `can_queue` may still let in: the last byte below the limit, and then a whole block. -/
def kMaxQueuedBlocks : Nat := PeerManager.kMaxQueuedBytes - 1 + 13 + kBlockSize

structure Tallied (c : PeerConnection) : Prop where
  counted : c.queuedBytes = (c.writeBuffer.map List.length).sum
  capped : c.queuedBlocks ≤ kMaxQueuedBlocks

section Blocks

theorem carriesBlock_message (message : Message) :
    carriesBlock message.bytes = true ↔ ∃ index offset data, message = .piece index offset data := by
  have other : ∀ id payload, id ≠ msgPiece → ¬ carriesBlock (buildMessage id payload) = true :=
    fun id payload different kind => other_kind id payload different (of_decide_eq_true kind)
  cases message with
  | piece index offset data => exact ⟨fun _ => ⟨_, _, _, rfl⟩, fun _ => decide_eq_true (buildMessage_id _ _)⟩
  | handshake torrent peerId => simp [carriesBlock, Message.bytes, buildHandshake, ascii, msgPiece]
  | keepAlive => simp [carriesBlock, Message.bytes]
  | choke => simpa [Message.bytes, buildRequest] using other msgChoke _ (by decide)
  | unchoke => simpa [Message.bytes, buildRequest] using other msgUnchoke _ (by decide)
  | interested => simpa [Message.bytes, buildRequest] using other msgInterested _ (by decide)
  | have_ index => simpa [Message.bytes, buildRequest] using other msgHave _ (by decide)
  | bitfield raw => simpa [Message.bytes, buildRequest] using other msgBitfield _ (by decide)
  | request req => simpa [Message.bytes, buildRequest] using other msgRequest _ (by decide)

theorem queuedBlocks_le (buffer : List Bytes) :
    ((buffer.filter carriesBlock).map List.length).sum ≤ (buffer.map List.length).sum :=
  (List.filter_sublist.map _).sum_le_sum (fun _ _ => Nat.zero_le _)

end Blocks

section Operations

variable {c : PeerConnection} (tallied : Tallied c)

include tallied

theorem Tallied.enqueue (m : Bytes) (fits : carriesBlock m = true → c.queuedBytes < PeerManager.kMaxQueuedBytes ∧
    m.length ≤ 13 + kBlockSize) : Tallied (c.enqueue m) := by
  have counted := tallied.counted
  have capped := tallied.capped
  refine ⟨?_, ?_⟩
  · simp only [PeerConnection.enqueue, List.map_append, List.sum_append, List.map_cons, List.map_nil, List.sum_cons,
      List.sum_nil]
    omega
  · simp only [queuedBlocks, PeerConnection.enqueue, List.filter_append, List.map_append, List.sum_append]
    cases kind : carriesBlock m with
    | false =>
      simp only [List.filter_cons, kind, Bool.false_eq_true, if_false, List.filter_nil, List.map_nil, List.sum_nil,
        Nat.add_zero]
      exact capped
    | true =>
      obtain ⟨space, small⟩ := fits kind
      have most := queuedBlocks_le c.writeBuffer
      rw [← counted] at most
      simp only [List.filter_cons, kind, if_true, List.filter_nil, List.map_cons, List.map_nil, List.sum_cons,
        List.sum_nil, kMaxQueuedBlocks]
      omega

theorem Tallied.remove {next : PeerConnection} {before after : List Bytes} {m : Bytes}
    (buffer : c.writeBuffer = before ++ m :: after) (left : next.writeBuffer = before ++ after)
    (bytes : next.queuedBytes = c.queuedBytes - m.length) : Tallied next := by
  have counted := tallied.counted
  have capped := tallied.capped
  rw [buffer, List.map_append, List.sum_append, List.map_cons, List.sum_cons] at counted
  refine ⟨?_, ?_⟩
  · rw [bytes, left, List.map_append, List.sum_append]
    omega
  · refine Nat.le_trans ?_ capped
    rw [queuedBlocks, queuedBlocks, left, buffer]
    refine (List.Sublist.map _ (List.Sublist.filter _ ?_)).sum_le_sum (fun _ _ => Nat.zero_le _)
    exact (List.sublist_cons_self m after).append_left before

theorem Tallied.drain (result : Send) (now : Time) : Tallied (c.drain result now).1 := by
  unfold PeerConnection.drain
  split
  · exact tallied
  · rename_i front rest buffer
    split
    · exact tallied
    · exact tallied
    · rename_i count
      simp only [PeerConnection.advance]
      split
      · have whole : c.writeBuffer = [] ++ front :: rest := buffer
        exact tallied.remove whole rfl rfl
      · exact ⟨tallied.counted, tallied.capped⟩

theorem Tallied.cancel (index offset length : Nat) : Tallied (c.removeQueuedPiece index offset length).1 := by
  rcases removeQueuedPiece_cases c index offset length with same | ⟨before, m, after, buffer, -, -, result⟩
  · rw [same]
    exact tallied
  · rw [result]
    exact tallied.remove buffer rfl rfl

theorem Tallied.send (message : Message) (other : ∀ index offset data, message ≠ .piece index offset data) :
    Tallied (c.enqueue message.bytes) := by
  refine tallied.enqueue _ (fun kind => ?_)
  obtain ⟨index, offset, data, same⟩ := (carriesBlock_message message).mp kind
  exact absurd same (other index offset data)

theorem Tallied.touches {after : PeerConnection} (touch : PeerManager.Touches c after) : Tallied after := by
  cases touch with
  | drain result now => exact tallied.drain result now
  | receive chunk now => exact ⟨tallied.counted, tallied.capped⟩
  | ping empty => exact tallied.send .keepAlive (by simp)
  | message rest id frequency out msg handled extracted effect =>
    have read : Tallied { c with readBuffer := rest, handled := c.handled ++ [msg] } :=
      ⟨tallied.counted, tallied.capped⟩
    cases effect with
    | cancelled index offset length => exact read.cancel index offset length
    | _ => exact ⟨read.counted, read.capped⟩

end Operations

end PeerConnection

namespace Session

open PeerManager PeerConnection

def Queued (pm : PeerManager) : Prop := ∀ id c, pm.conns.find? id = some c → Tallied c

section Moves

variable {sha1 : Bytes → Bytes} {kernel : Kernel} {t : TorrentFile}

theorem modify_queued {pm : PeerManager} (queued : Queued pm) (id : Nat) (change : PeerConnection → PeerConnection)
    (keeps : ∀ c, pm.conns.find? id = some c → Tallied c → Tallied (change c)) :
    Queued { pm with conns := pm.conns.modify id change } := by
  intro other c found
  obtain ⟨old, present, same | ⟨here, changed⟩⟩ := find_modify_some found
  · rw [same]
    exact queued other old present
  · subst here
    rw [changed]
    exact keeps old present (queued other old present)

theorem greeted_tallied {c : PeerConnection} (tallied : Tallied c) (have_ : Bitfield) (complete : Bool) :
    Tallied (greeted have_ complete c) := by
  have told := tallied.send (.bitfield have_.bytes) (by simp)
  have quiet : Tallied { c.enqueue (Message.bytes (.bitfield have_.bytes)) with amChoking := false } :=
    ⟨told.counted, told.capped⟩
  have unchoked := quiet.send .unchoke (by simp)
  cases complete with
  | true => exact unchoked
  | false =>
    refine Tallied.send ?_ .interested (by simp)
    exact ⟨unchoked.counted, unchoked.capped⟩

theorem newcomer_tallied (pm : PeerManager) (sock : Socket) (peer : Peer) (now : Time) (answers : Bool) :
    Tallied (newcomer pm sock peer now answers) := by
  have empty : Tallied (newcomer pm sock peer now false) := ⟨rfl, Nat.zero_le _⟩
  cases answers with
  | false => exact empty
  | true => exact empty.send (.handshake pm.torrent pm.peerId) (by simp)

theorem Alters.tallied {c after : PeerConnection} (alters : Alters c after) (tallied : Tallied c) :
    Tallied after := by
  cases alters with
  | touch _ touch => exact tallied.touches touch
  | answer torrent peerId => exact tallied.send (.handshake torrent peerId) (by simp)
  | greet have_ complete => exact greeted_tallied tallied have_ complete
  | serve index offset data space short =>
    refine tallied.enqueue _ (fun _ => ⟨space, ?_⟩)
    simp only [Message.bytes, buildMessage_length, List.length_append, BigEndian.be32_length]
    omega
  | announce index => exact tallied.send (.have_ index) (by simp)
  | expire cutoff => exact ⟨tallied.counted, tallied.capped⟩

theorem acts_queued {w next : World} (moves : Acts w next) (queued : Queued w.pm) : Queued next.pm := by
  intro id c found
  exact (acts_descend moves id c found).preserves newcomer_tallied
    (fun _ _ tallied alters => alters.tallied tallied) (queued id)

theorem queued_quiet (geometry : Torrent.Geometry t) {f next : Flow} (custody : Custody sha1 t f)
    (queued : Queued f.session.peers) (move : Quiet sha1 kernel f next) : Queued next.session.peers := by
  intro id c found
  exact (move.descends geometry custody id c found).preserves newcomer_tallied
    (fun _ _ tallied alters => alters.tallied tallied) (queued id)

theorem queued_ask {s next : Session} (queued : Queued s.peers) (ask : Ask s next) : Queued next.peers := by
  cases ask with
  | ask id c choice now req pieces found unchoked slot picked =>
    refine modify_queued queued id _ (fun d _ tallied => ?_)
    refine Tallied.send ?_ (.request req) (by simp)
    exact ⟨tallied.counted, tallied.capped⟩
  | decline id c choice pieces picked => exact queued

end Moves

theorem reached_queued {sha1 : Bytes → Bytes} {kernel : Kernel} {t : TorrentFile} {sys : Sys}
    (reached : Reached sha1 kernel t sys) : Queued sys.session.peers := by
  have geometry := reached_geometry reached
  have both : Custody sha1 t sys.flow ∧ Queued sys.flow.session.peers := by
    refine reached_invariant (fun f => Custody sha1 t f ∧ Queued f.session.peers) ?_ ?_ ?_ reached
    · intro sys begins
      refine ⟨begins_custody begins, fun id c found => ?_⟩
      simp only [Sys.flow, (begins_fresh begins).conns, Table.find_empty] at found
      cases found
    · rintro f next ⟨custody, queued⟩ move
      exact ⟨custody.quiet geometry move, queued_quiet geometry custody queued move⟩
    · rintro f next ⟨custody, queued⟩ ask
      exact ⟨custody.ask geometry ask, queued_ask queued ask⟩
  exact both.2

/-- In every state of every run, and after every act of the round that begins there,
`queued_bytes` is the size of the write queue, no message in it is larger, and the blocks in it
stay under the cap. -/
theorem backlog_capped (sha1 : Bytes → Bytes) (kernel : Kernel) (t : TorrentFile) (sys : Sys)
    (reached : Reached sha1 kernel t sys) (w : World) (acts : Acts ⟨sys.session.peers, []⟩ w) (id : Nat)
    (c : PeerConnection) (found : w.pm.conns.find? id = some c) :
    c.queuedBytes = (c.writeBuffer.map List.length).sum ∧ (∀ m ∈ c.writeBuffer, m.length ≤ c.queuedBytes) ∧
      ((c.writeBuffer.filter carriesBlock).map List.length).sum ≤ kMaxQueuedBytes - 1 + 13 + kBlockSize := by
  have tallied : Tallied c := acts_queued acts (reached_queued reached) id c found
  refine ⟨tallied.counted, ?_, tallied.capped⟩
  intro m member
  rw [tallied.counted]
  exact List.le_sum_of_mem (List.mem_map_of_mem member)

section Example

def seeding : List Input :=
  arrives 0 (ascii "h") [] :: roundEnd ++
    [arrives 1 (ascii "h") (buildHandshake oneByte (List.replicate 20 8)), .dispatch (fun _ => [])] ++ roundEnd ++
    [arrives 1 (ascii "h") (buildRequest ⟨0, 0, 1⟩), .dispatch (fun _ => [])]

end Example

/-- The handshake, the greeting and the block wait: 93 bytes, of which the block is 14. -/
theorem backlog_capped_one_block :
    ∃ sys, Reached constantDigest wholeKernel oneByte sys ∧
      ∃ c, sys.session.peers.conns.find? 0 = some c ∧ c.queuedBytes = 93 ∧ c.queuedBlocks = 14 ∧
        c.queuedBytes = (c.writeBuffer.map List.length).sum := by
  have seen : (rehearse constantDigest oneByte seeding).bind (fun sys =>
      (sys.session.peers.conns.find? 0).map (fun c => (c.queuedBytes, c.queuedBlocks))) = some (93, 14) := by
    decide +kernel
  obtain ⟨sys, ran, shown⟩ := Option.bind_eq_some_iff.mp seen
  obtain ⟨c, found, sizes⟩ := Option.map_eq_some_iff.mp shown
  have reached := rehearse_reached ⟨_, oneByte_accepted⟩ ran
  obtain ⟨bytes, blocks⟩ := Prod.mk.inj sizes
  refine ⟨sys, reached, c, found, bytes, blocks, ?_⟩
  exact (backlog_capped constantDigest wholeKernel oneByte sys reached ⟨sys.session.peers, []⟩
    Relation.ReflTransGen.refl 0 c found).1

end Session

end TorrentPeer
