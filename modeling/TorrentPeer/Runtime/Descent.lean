import TorrentPeer.Runtime.Custody

/-! Where a connection comes from: every one that exists after some moves is new or the one that had
its number before, changed only in the ways listed here. -/

namespace TorrentPeer.Session

open PeerManager PieceManager Wire Transition Torrent

/-- What one change outside the filling passes can do to a connection. -/
inductive Alters : PeerConnection → PeerConnection → Prop
  | touch (c after : PeerConnection) (touch : Touches c after) : Alters c after
  | answer (c : PeerConnection) (torrent : TorrentFile) (peerId : Bytes) :
      Alters c (c.enqueue (Message.bytes (.handshake torrent peerId)))
  | greet (c : PeerConnection) (have_ : Bitfield) (complete : Bool) : Alters c (greeted have_ complete c)
  | serve (c : PeerConnection) (index offset : Nat) (data : Bytes) (space : c.queuedBytes < kMaxQueuedBytes)
      (short : data.length ≤ kBlockSize) : Alters c (c.enqueue (Message.bytes (.piece index offset data)))
  | announce (c : PeerConnection) (index : Nat) : Alters c (c.enqueue (Message.bytes (.have_ index)))
  | expire (c : PeerConnection) (cutoff : Time) :
      Alters c { c with pending := (takeStale c.pending cutoff).2, snubbed := true }

def Descends (conns : Table Nat PeerConnection) (id : Nat) (c : PeerConnection) : Prop :=
  ∃ origin, (conns.find? id = some origin ∨ ∃ pm sock peer now answers, origin = newcomer pm sock peer now answers) ∧
    Relation.ReflTransGen Alters origin c

section Rules

variable {conns middle : Table Nat PeerConnection} {id : Nat} {c after : PeerConnection}

theorem Descends.same (found : conns.find? id = some c) : Descends conns id c :=
  ⟨c, Or.inl found, .refl⟩

theorem Descends.alter (descends : Descends conns id c) (alters : Alters c after) : Descends conns id after := by
  obtain ⟨origin, known, changes⟩ := descends
  exact ⟨origin, known, changes.tail alters⟩

theorem Descends.trans (later : Descends middle id c)
    (earlier : ∀ old, middle.find? id = some old → Descends conns id old) : Descends conns id c := by
  obtain ⟨origin, found | born, changes⟩ := later
  · obtain ⟨first, known, before⟩ := earlier origin found
    exact ⟨first, known, before.trans changes⟩
  · exact ⟨origin, Or.inr born, changes⟩

theorem Descends.preserves {good : PeerConnection → Prop} (descends : Descends conns id c)
    (fresh : ∀ pm sock peer now answers, good (newcomer pm sock peer now answers))
    (keeps : ∀ c after, good c → Alters c after → good after)
    (holds : ∀ old, conns.find? id = some old → good old) : good c := by
  obtain ⟨origin, known, changes⟩ := descends
  have begun : good origin := by
    rcases known with found | ⟨pm, sock, peer, now, answers, same⟩
    · exact holds origin found
    · rw [same]
      exact fresh pm sock peer now answers
  induction changes with
  | refl => exact begun
  | tail _ last ih => exact keeps _ _ ih last

end Rules

section Pending

theorem drain_pending (c : PeerConnection) (result : Send) (now : Time) :
    (c.drain result now).1.pending = c.pending := by
  obtain ⟨_, _, _, _, _, same⟩ := c.drain_shape result now
  rw [same]

theorem effect_pending {c : PeerConnection} {id : Nat} {frequency : List Nat} {out : List PeerEvent} {msg : Bytes}
    {handled : Handled} (effect : PeerConnection.Effect c id frequency out msg handled) :
    handled.conn.pending.Sublist c.pending := by
  cases effect with
  | choked => exact List.nil_sublist _
  | delivered k block size answered => exact List.eraseIdx_sublist c.pending k
  | cancelled index offset length =>
    obtain ⟨_, _, same⟩ := c.removeQueuedPiece_shape index offset length
    rw [same]
  | _ => exact List.Sublist.refl _

theorem Alters.pending {c after : PeerConnection} (alters : Alters c after) : after.pending.Sublist c.pending := by
  cases alters with
  | touch _ touch =>
    cases touch with
    | drain result now =>
      rw [drain_pending]
    | receive chunk now => exact List.Sublist.refl _
    | message rest peer frequency out msg handled extracted effect =>
      have kept := effect_pending effect
      exact kept
    | ping empty => exact List.Sublist.refl _
  | answer torrent peerId => exact List.Sublist.refl _
  | greet have_ complete =>
    unfold greeted
    cases complete <;> exact List.Sublist.refl _
  | serve index offset data space short => exact List.Sublist.refl _
  | announce index => exact List.Sublist.refl _
  | expire cutoff => exact List.dropWhile_sublist _

theorem newcomer_pending (pm : PeerManager) (sock : Socket) (peer : Peer) (now : Time) (answers : Bool) :
    (newcomer pm sock peer now answers).pending = [] := by
  cases answers <;> rfl

end Pending

section Moves

variable {sha1 : Bytes → Bytes} {kernel : Kernel} {t : TorrentFile} {f next : Flow}

theorem acts_descend {w next : World} (moves : Acts w next) :
    ∀ id c, next.pm.conns.find? id = some c → Descends w.pm.conns id c := by
  have step : ∀ state after a, Act.Own a →
      (∀ id c, state.pm.conns.find? id = some c → Descends w.pm.conns id c) → act state a = some after →
      ∀ id c, after.pm.conns.find? id = some c → Descends w.pm.conns id c := by
    intro state after a own before moved id c found
    rcases act_connection own moved found with
      ⟨old, present, same | ⟨-, touch⟩ | ⟨-, same⟩⟩ | ⟨-, -, -, -, sock, peer, now, answers, -, same⟩
    · rw [same]
      exact before id old present
    · exact (before id old present).alter (.touch old c touch)
    · rw [same]
      exact (before id old present).alter (.answer old _ _)
    · exact ⟨c, Or.inr ⟨state.pm, sock, peer, now, answers, same⟩, .refl⟩
  exact Reaches.preserves step moves (fun id c found => .same found)

theorem modify_descends {conns : Table Nat PeerConnection} {id other : Nat} {c : PeerConnection}
    {change : PeerConnection → PeerConnection} (found : (conns.modify other change).find? id = some c)
    (alters : ∀ old, conns.find? other = some old → Alters old (change old)) : Descends conns id c := by
  obtain ⟨old, present, same | ⟨here, same⟩⟩ := find_modify_some found
  · rw [same]
    exact .same present
  · rw [same]
    exact (Descends.same present).alter (alters old (here ▸ present))

theorem Quiet.descends (geometry : Geometry t) (custody : Custody sha1 t f) (move : Quiet sha1 kernel f next)
    (id : Nat) (c : PeerConnection) (found : next.session.peers.conns.find? id = some c) :
    Descends f.session.peers.conns id c := by
  cases move with
  | build order => exact .same found
  | round order revents env idle => exact acts_descend (pollRound_acts order revents env custody.room).1 id c found
  | dial env fresh =>
    dsimp only at found
    rw [(addPeers_apart env f.session.peers fresh).conns] at found
    exact .same found
  | complete => exact .same found
  | release event rest reqs front gives => exact .same found
  | join other rest front =>
    dsimp only at found
    rw [onJoined_peers] at found
    exact modify_descends found (fun old _ => .greet old _ _)
  | serve other req rest session front served =>
    have typed : RequestTyped (.request other req) := custody.typed _ (by rw [front]; exact List.mem_cons_self ..)
    cases serve_cases geometry custody.sound other req session typed served with
    | ignored read kept => exact .same found
    | sent read kept held space inside count =>
      apply modify_descends found
      intro old present
      rw [canQueue, present] at space
      have short := Nat.le_trans (List.length_take_le req.length
        ((pieceBytes t (onDisk f.session.disk f.session.store) req.pieceIndex).drop req.offset)) typed.2.2
      exact .serve old _ _ _ (of_decide_eq_true space) short
  | file other block rest result taken judged hosts front idle took verdict =>
    cases judge_cases sha1 kernel f.session taken judged other block result hosts took verdict with
    | verified count pp b pieces piece written fits verdict stored =>
      dsimp only at found
      rw [broadcastHave, Table.find_update] at found
      obtain ⟨old, present, same⟩ := Option.map_eq_some_iff.mp found
      rw [← same]
      exact (Descends.same present).alter (.announce old _)
    | _ => exact .same found
  | convict host hosts listed => exact .same found
  | expel other old present =>
    dsimp only at found
    rw [expel_conns other old present, Table.find_erase] at found
    split at found
    · cases found
    · exact .same found
  | expire other old cutoff present => exact modify_descends found (fun old _ => .expire old cutoff)

theorem Quiets.descend (geometry : Geometry t) (custody : Custody sha1 t f) (moves : Quiets sha1 kernel f next) :
    Custody sha1 t next ∧ ∀ id c, next.session.peers.conns.find? id = some c →
      Descends f.session.peers.conns id c := by
  induction moves with
  | refl => exact ⟨custody, fun id c found => .same found⟩
  | tail _ last ih =>
    obtain ⟨middle, earlier⟩ := ih
    refine ⟨middle.quiet geometry last, ?_⟩
    intro id c found
    exact (last.descends geometry middle id c found).trans (earlier id)

end Moves

end TorrentPeer.Session
