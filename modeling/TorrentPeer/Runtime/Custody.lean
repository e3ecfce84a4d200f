import TorrentPeer.Runtime.Moves
import TorrentPeer.Runtime.DiskRefinement
import TorrentPeer.Runtime.PieceLedger

/-! Only verified bytes are kept, announced and served. -/

namespace TorrentPeer.Session

open Splice Torrent DiskManager

def onDisk (disk : DiskManager) (store : Store) : Bytes :=
  disk.files.flatMap (fun f => slice (store.content f.path) 0 f.length)

def pieceBytes (t : TorrentFile) (array : Bytes) (i : Nat) : Bytes :=
  slice array (i * t.pieceLength.toNat) (pieceSize t i)

theorem holds_flat (files : List FileEntry) (store : Store) (array : Bytes) (start : Nat)
    (tiled : Tiled files start array.length) (holds : Holds files store array) :
    files.flatMap (fun f => slice (store.content f.path) 0 f.length) = array.drop start := by
  induction files generalizing start with
  | nil =>
    have finished : start = array.length := tiled
    rw [finished, List.drop_length]
    rfl
  | cons f rest ih =>
    obtain ⟨here, positive, later⟩ := tiled
    rw [List.flatMap_cons, holds f (by simp), here,
      ih (start + f.length) later (fun g member => holds g (by simp [member]))]
    rw [slice, ← List.drop_drop, List.take_append_drop]

theorem onDisk_eq {disk : DiskManager} {store : Store} {t : TorrentFile} {array : Bytes}
    (mounted : Mounted disk t) (holds : Holds disk.files store array)
    (width : array.length = t.totalLength) : onDisk disk store = array := by
  have flat := holds_flat disk.files store array 0 (by rw [width]; exact mounted.tiled) holds
  rw [List.drop_zero] at flat
  exact flat

/-- The files hold what `have_` says. -/
structure Sound (sha1 : Bytes → Bytes) (t : TorrentFile) (pieces : PieceManager) (disk : DiskManager)
    (store : Store) : Prop where
  valid : PieceManager.Valid t pieces
  mounted : Mounted disk t
  width : (onDisk disk store).length = t.totalLength
  holds : Holds disk.files store (onDisk disk store)
  verified : ∀ i, pieces.have_.get i = true →
    pieces.verify sha1 i (pieceBytes t (onDisk disk store) i) = true

section Storage

variable {sha1 : Bytes → Bytes} {t : TorrentFile} {pieces : PieceManager} {disk : DiskManager}
  {store : Store} (geometry : Geometry t) (sound : Sound sha1 t pieces disk store)

include sound

theorem Sound.states {next : PieceManager} (valid : PieceManager.Valid t next)
    (same : next.have_ = pieces.have_) : Sound sha1 t next disk store := by
  refine ⟨valid, sound.mounted, sound.width, sound.holds, ?_⟩
  intro i held
  rw [PieceManager.verify_congr sha1 (valid.torrent.trans sound.valid.torrent.symm)]
  exact sound.verified i (same ▸ held)

theorem Sound.content {read : Store} (same : read.content = store.content) :
    Sound sha1 t pieces disk read := by
  have kept : onDisk disk read = onDisk disk store := by rw [onDisk, onDisk, same]
  refine ⟨sound.valid, sound.mounted, by rw [kept]; exact sound.width, ?_, ?_⟩
  · intro f member
    rw [kept, same]
    exact sound.holds f member
  · rw [kept]
    exact sound.verified

include geometry

theorem Sound.written (kernel : Kernel) {written : Store} (i : Nat) (data : Bytes)
    (counted : i < pieces.pieceCount) (size : data.length = pieceSize t i)
    (stored : disk.writePiece kernel ⟨i, data⟩ store = .ok () written) :
    Holds disk.files written (onDisk disk written) ∧
      onDisk disk written = splice (onDisk disk store) (i * t.pieceLength.toNat) data := by
  have last := geometry.piece_end i (sound.valid.inside i counted)
  have index : i < disk.pieceCount := by
    rw [sound.mounted.pieceCount, ← sound.valid.pieceCount]
    exact counted
  obtain ⟨after, performed, holds, -⟩ := writePiece_ok kernel sound.mounted geometry store
    (onDisk disk store) sound.holds sound.width ⟨i, data⟩ index (by dsimp only; omega)
  rw [stored] at performed
  cases performed
  dsimp only at holds
  have width : (splice (onDisk disk store) (i * t.pieceLength.toNat) data).length = t.totalLength := by
    rw [splice_length _ _ _ (by rw [sound.width]; omega), sound.width]
  have array := onDisk_eq sound.mounted holds width
  exact ⟨by rw [array]; exact holds, array⟩

theorem Sound.mark (kernel : Kernel) {next : PieceManager} {written : Store} (i : Nat) (data : Bytes)
    (valid : PieceManager.Valid t next)
    (marked : ∀ j, next.have_.get j = (decide (j = i) || pieces.have_.get j))
    (counted : i < pieces.pieceCount) (size : data.length = pieceSize t i)
    (passed : pieces.verify sha1 i data = true)
    (stored : disk.writePiece kernel ⟨i, data⟩ store = .ok () written) :
    Sound sha1 t next disk written := by
  have inside := sound.valid.inside i counted
  have last := geometry.piece_end i inside
  obtain ⟨holds, array⟩ := sound.written geometry kernel i data counted size stored
  have width : (onDisk disk written).length = t.totalLength := by
    rw [array, splice_length _ _ _ (by rw [sound.width]; omega), sound.width]
  refine ⟨valid, sound.mounted, width, holds, ?_⟩
  intro j held
  rw [PieceManager.verify_congr sha1 (valid.torrent.trans sound.valid.torrent.symm), array]
  rw [marked j, Bool.or_eq_true, decide_eq_true_eq] at held
  by_cases same : j = i
  · subst same
    rw [pieceBytes, ← size, slice_splice_same _ _ _ (by rw [sound.width]; omega)]
    exact passed
  · have old := held.resolve_left same
    have there := sound.valid.inside j (sound.valid.bits ▸ Bitfield.get_inside _ j old)
    have apart := geometry.pieces_apart j i there inside same
    rw [pieceBytes, slice_splice_disjoint _ _ _ _ _ (by rw [sound.width]; omega)
      (by rw [size]; exact apart)]
    exact sound.verified j old

end Storage

/-- The session after a block has been judged: only its bytes and marks can have changed. -/
inductive Judged (sha1 : Bytes → Bytes) (kernel : Kernel) (s : Session) (id : Nat) (block : Block) :
    BlockResult → List Bytes → Session → Prop
  | rejected (count : Nat) (piece : CompletedPiece) :
      Judged sha1 kernel s id block ⟨.rejected, piece⟩ [] { s with downloaded := count }
  | incomplete (count : Nat) (pp : PartialPiece) (b : Nat) (pieces : PieceManager)
      (fits : PieceManager.Fits s.pieces block pp b)
      (verdict : PieceManager.Verdict sha1 s.pieces block pp b ⟨.incomplete, ⟨0, []⟩⟩ pieces) :
      Judged sha1 kernel s id block ⟨.incomplete, ⟨0, []⟩⟩ [] { s with
        pieces := pieces
        downloaded := count
        bans := s.bans.onBlock id block }
  | failed (count : Nat) (pp : PartialPiece) (b : Nat) (pieces : PieceManager) (piece : CompletedPiece)
      (fits : PieceManager.Fits s.pieces block pp b)
      (verdict : PieceManager.Verdict sha1 s.pieces block pp b ⟨.pieceFailed, piece⟩ pieces) :
      Judged sha1 kernel s id block ⟨.pieceFailed, piece⟩
        ((s.bans.onBlock id block).onPieceFailed piece).1 { s with
          pieces := pieces
          downloaded := count
          bans := ((s.bans.onBlock id block).onPieceFailed piece).2 }
  | verified (count : Nat) (pp : PartialPiece) (b : Nat) (pieces : PieceManager) (piece : CompletedPiece)
      (written : Store) (fits : PieceManager.Fits s.pieces block pp b)
      (verdict : PieceManager.Verdict sha1 s.pieces block pp b ⟨.pieceVerified, piece⟩ pieces)
      (stored : s.disk.writePiece kernel piece s.store = .ok () written) :
      Judged sha1 kernel s id block ⟨.pieceVerified, piece⟩
        ((s.bans.onBlock id block).onPieceVerified piece).1 { s with
          pieces := pieces
          store := written
          peers := s.peers.broadcastHave piece.index
          downloaded := count
          bans := ((s.bans.onBlock id block).onPieceVerified piece).2 }

theorem judge_cases (sha1 : Bytes → Bytes) (kernel : Kernel) (s taken judged : Session) (id : Nat)
    (block : Block) (result : BlockResult) (hosts : List Bytes)
    (took : s.takeBlock sha1 id block = .ok (result, taken))
    (verdict : taken.judge kernel result = .ok (hosts, judged)) :
    Judged sha1 kernel s id block result hosts judged := by
  obtain ⟨⟨answer, pieces⟩, filed, same⟩ := bind_ok took
  cases same
  rcases PieceManager.onBlock_cases sha1 s.pieces pieces block result filed with
    ⟨refused, kept⟩ | ⟨pp, b, fits, accepted⟩
  · obtain ⟨status, piece⟩ := result
    cases refused
    cases verdict
    subst kept
    exact Judged.rejected _ piece
  · have outcome := PieceManager.fileBlock_verdict sha1 result pieces accepted
    cases outcome with
    | incomplete short =>
      cases verdict
      exact Judged.incomplete _ pp b _ fits (PieceManager.Verdict.incomplete short)
    | failed full wrong =>
      cases verdict
      exact Judged.failed _ pp b _ _ fits (PieceManager.Verdict.failed full wrong)
    | verified _ full right stored =>
      simp only [judge] at verdict
      split at verdict
      · cases verdict
      · rename_i written saved
        cases verdict
        exact Judged.verified _ pp b _ _ written fits
          (PieceManager.Verdict.verified _ full right stored) saved

theorem Sound.judged {sha1 : Bytes → Bytes} {kernel : Kernel} {t : TorrentFile} {s judged : Session}
    {id : Nat} {block : Block} {result : BlockResult} {hosts : List Bytes} (geometry : Geometry t)
    (sound : Sound sha1 t s.pieces s.disk s.store)
    (outcome : Judged sha1 kernel s id block result hosts judged) :
    Sound sha1 t judged.pieces judged.disk judged.store := by
  cases outcome with
  | rejected count piece => exact sound
  | incomplete count pp b pieces fits verdict =>
    refine sound.states (verdict.keeps_valid geometry sound.valid fits) ?_
    cases verdict
    rfl
  | failed count pp b pieces piece fits verdict =>
    refine sound.states (verdict.keeps_valid geometry sound.valid fits) ?_
    cases verdict
    rfl
  | verified count pp b pieces piece written fits verdict stored =>
    have valid := verdict.keeps_valid geometry sound.valid fits
    obtain ⟨-, -, -, size⟩ := PieceManager.filedPiece_facts geometry sound.valid fits
    cases verdict with
    | verified _ full right marked =>
      obtain ⟨-, -, -, bits⟩ := PieceManager.markHave_valid
        (PieceManager.erase_valid sound.valid block.pieceIndex) block.pieceIndex fits.counted
        fits.wanted (by simp) marked
      exact sound.mark geometry kernel block.pieceIndex _ valid bits fits.counted size right stored

section Recheck

variable {sha1 : Bytes → Bytes} {kernel : Kernel} {t : TorrentFile} {disk : DiskManager}

theorem recheck_sound {pieces checked : PieceManager} {store : Store} (i : Nat)
    (sound : Sound sha1 t pieces disk store) (idle : ∀ index, pieces.active.find? index = none)
    (counted : i < pieces.pieceCount) (fresh : pieces.have_.get i = false)
    (done : pieces.recheck sha1 i (pieceBytes t (onDisk disk store) i) = .ok checked) :
    Sound sha1 t checked disk store ∧ (∀ index, checked.active.find? index = none) ∧
      checked.pieceCount = pieces.pieceCount ∧
      ∀ j, j ≠ i → checked.have_.get j = pieces.have_.get j := by
  unfold PieceManager.recheck at done
  split at done
  · rename_i passed
    obtain ⟨valid, active, torrent, bits⟩ :=
      PieceManager.markHave_valid sound.valid i counted fresh (idle i) done
    refine ⟨⟨valid, sound.mounted, sound.width, sound.holds, ?_⟩, ?_, ?_, ?_⟩
    · intro j held
      rw [bits j, Bool.or_eq_true, decide_eq_true_eq] at held
      rw [PieceManager.verify_congr sha1 (torrent.trans sound.valid.torrent.symm)]
      rcases held with same | old
      · subst same
        exact passed
      · exact sound.verified j old
    · intro index
      rw [active]
      exact idle index
    · rw [valid.pieceCount, sound.valid.pieceCount]
    · intro j different
      simp [bits j, different]
  · cases done
    exact ⟨sound, idle, rfl, fun _ _ => rfl⟩

theorem recheckAll_sound (geometry : Geometry t) (rest : List Nat) (pieces last : PieceManager) (store read : Store)
    (sound : Sound sha1 t pieces disk store) (idle : ∀ index, pieces.active.find? index = none)
    (distinct : rest.Nodup)
    (fresh : ∀ i ∈ rest, i < pieces.pieceCount ∧ pieces.have_.get i = false)
    (done : recheckAll sha1 kernel disk t rest pieces store = .ok (last, read)) :
    Sound sha1 t last disk read ∧ ∀ index, last.active.find? index = none := by
  induction rest generalizing pieces store with
  | nil =>
    cases done
    exact ⟨sound, idle⟩
  | cons i rest ih =>
    obtain ⟨absent, others⟩ := List.nodup_cons.mp distinct
    obtain ⟨counted, unset⟩ := fresh i (by simp)
    have inside := sound.valid.inside i counted
    have cap := geometry.pieceLength_cap
    have size := geometry.pieceSize_le i inside
    have index : i < disk.pieceCount := by
      rw [sound.mounted.pieceCount, ← sound.valid.pieceCount]
      exact counted
    obtain ⟨after, performed, same, -⟩ := readBlock_ok kernel sound.mounted geometry store
      (onDisk disk store) sound.holds sound.width i 0 (pieceSize t i) index (by omega)
    rw [recheckAll, Nat.mod_eq_of_lt (by omega), performed] at done
    obtain ⟨checked, one, tail⟩ := bind_ok done
    rw [Nat.add_zero] at one
    obtain ⟨kept, still, count, unchanged⟩ := recheck_sound i sound idle counted unset one
    refine ih checked after (kept.content same) still others ?_ tail
    intro j member
    obtain ⟨below, clear⟩ := fresh j (by simp [member])
    have different : j ≠ i := fun equal => absent (equal ▸ member)
    exact ⟨by rw [count]; exact below, by rw [unchanged j different]; exact clear⟩

end Recheck

/-- What the constructor leaves behind. -/
structure Fresh (sha1 : Bytes → Bytes) (t : TorrentFile) (s : Session) : Prop where
  sound : Sound sha1 t s.pieces s.disk s.store
  idle : ∀ index, s.pieces.active.find? index = none
  bans : s.bans = BanManager.create
  conns : s.peers.conns = Table.empty
  banned : s.peers.banned = ∅
  promoted : s.peers.promoted = 0
  room : s.peers.Room
  torrent : s.peers.torrent = t
  peerId : s.peers.peerId.length = 20
  pieceCount : s.peers.pieceCount = t.pieces.length % 2 ^ 32
  maxPeers : s.peers.maxPeers = kMaxPeers

theorem create_fresh {sha1 : Bytes → Bytes} {kernel : Kernel} {t : TorrentFile} {peerId : Bytes}
    {listenSock : Option Nat} {downloadDir : Path} {initialPeers : List Peer} {env : Env}
    {store : Store} {s : Session} (geometry : Geometry t)
    (created : create sha1 kernel t peerId listenSock downloadDir initialPeers env store = .ok s) :
    Fresh sha1 t s := by
  obtain ⟨disk, opened, array, mounted_by, mounted, -, width, holds⟩ :=
    create_ok kernel geometry downloadDir store
  rw [create, mounted_by] at created
  obtain ⟨peers, managed, onward⟩ := bind_ok created
  obtain ⟨⟨pieces, read⟩, checked, same⟩ := bind_ok onward
  cases same
  have content := onDisk_eq mounted holds width
  have start : Sound sha1 t (PieceManager.create t) disk opened := by
    refine ⟨PieceManager.create_valid t, mounted, by rw [content, width], by rw [content]; exact holds, ?_⟩
    intro i held
    simp [PieceManager.create] at held
  obtain ⟨sound, idle⟩ := recheckAll_sound geometry _ _ pieces opened read start (fun _ => rfl)
    List.nodup_range (fun i member => ⟨List.mem_range.mp member, Bitfield.get_ofBits _ i⟩) checked
  have apart := PeerManager.addPeers_apart env peers initialPeers
  unfold PeerManager.create at managed
  split at managed
  · cases managed
  · rename_i long
    cases managed
    have room := apart.room (Nat.zero_le _)
    refine ⟨sound, idle, rfl, ?_, ?_, ?_, room, ?_, ?_, ?_, ?_⟩
    all_goals dsimp only
    all_goals rw [apart.same]
    all_goals first | rfl | exact not_not.mp long

open PeerManager Wire Transition

def Genuine (t : TorrentFile) (pieces : PieceManager) (array : Bytes) : Message → Prop
  | .piece index offset data => pieces.have_.get index = true ∧
      offset + data.length ≤ pieceSize t index ∧
      data = slice (pieceBytes t array index) offset data.length
  | _ => True

def Buffers (good : Message → Prop) (conns : Table Nat PeerConnection) : Prop :=
  ∀ id c, conns.find? id = some c → ∀ m ∈ c.writeBuffer, ∃ message : Message, m = message.bytes ∧ good message

section Buffers

variable {good : Message → Prop} {conns : Table Nat PeerConnection} (buffers : Buffers good conns)

include buffers

theorem Buffers.update (change : Nat → PeerConnection → PeerConnection)
    (adds : ∀ id c, (change id c).writeBuffer = c.writeBuffer ∨
      ∃ message : Message, good message ∧ (change id c).writeBuffer = c.writeBuffer ++ [message.bytes]) :
    Buffers good (conns.update change) := by
  intro id after found m member
  rw [Table.find_update] at found
  obtain ⟨c, present, same⟩ := Option.map_eq_some_iff.mp found
  subst same
  rcases adds id c with kept | ⟨message, genuine, grown⟩
  · rw [kept] at member
    exact buffers id c present m member
  · rw [grown] at member
    rcases List.mem_append.mp member with old | new
    · exact buffers id c present m old
    · exact ⟨message, List.mem_singleton.mp new, genuine⟩

theorem Buffers.send (id : Nat) (message : Message) (note : PeerConnection → PeerConnection)
    (quiet : ∀ c, (note c).writeBuffer = c.writeBuffer) (genuine : good message) :
    Buffers good (conns.modify id (fun c => (note c).enqueue message.bytes)) := by
  apply buffers.update
  intro other c
  split
  · exact Or.inr ⟨message, genuine, by simp only [PeerConnection.enqueue, quiet]⟩
  · exact Or.inl rfl

theorem Buffers.erase (id : Nat) : Buffers good (conns.erase id) := by
  intro other c found
  rw [Table.find_erase] at found
  split at found
  · cases found
  · exact buffers other c found

theorem Buffers.weaken {weaker : Message → Prop} (implies : ∀ message, good message → weaker message) :
    Buffers weaker conns := by
  intro id c found m member
  obtain ⟨message, same, genuine⟩ := buffers id c found m member
  exact ⟨message, same, implies message genuine⟩

end Buffers

theorem touches_buffer {c after : PeerConnection} (touch : Touches c after) (m : Bytes)
    (member : m ∈ after.writeBuffer) : m ∈ c.writeBuffer ∨ m = Message.bytes .keepAlive := by
  cases touch with
  | drain result now =>
    unfold PeerConnection.drain at member
    split at member
    · exact Or.inl member
    · rename_i front rest shape
      split at member
      · exact Or.inl member
      · exact Or.inl member
      · simp only [PeerConnection.advance] at member
        split at member
        · exact Or.inl (by rw [shape]; exact List.mem_cons_of_mem _ member)
        · exact Or.inl member
  | receive chunk now => exact Or.inl member
  | message rest id frequency out msg handled extracted effect =>
    cases effect with
    | cancelled index offset length =>
      unfold PeerConnection.removeQueuedPiece at member
      dsimp only at member
      split at member
      · exact Or.inl member
      · exact Or.inl (List.mem_of_mem_eraseIdx member)
    | _ => exact Or.inl member
  | ping empty =>
    rcases List.mem_append.mp member with old | new
    · exact Or.inl old
    · exact Or.inr (List.mem_singleton.mp new)

theorem newcomer_buffer (pm : PeerManager) (sock : Socket) (peer : Peer) (now : Time) (answers : Bool)
    (m : Bytes) (member : m ∈ (newcomer pm sock peer now answers).writeBuffer) :
    m = Message.bytes (.handshake pm.torrent pm.peerId) := by
  cases answers with
  | false => cases member
  | true => exact List.mem_singleton.mp member

theorem Buffers.acts {good : Message → Prop} {w next : World} (moves : Acts w next)
    (handshake : ∀ torrent peerId, good (.handshake torrent peerId)) (keepAlive : good .keepAlive)
    (buffers : Buffers good w.pm.conns) : Buffers good next.pm.conns := by
  refine acts_each moves ?_ ?_ ?_ buffers
  · intro pm sock peer now answers m member
    exact ⟨_, newcomer_buffer pm sock peer now answers m member, handshake _ _⟩
  · intro c torrent peerId held m member
    rcases List.mem_append.mp member with old | new
    · exact held m old
    · exact ⟨_, List.mem_singleton.mp new, handshake torrent peerId⟩
  · intro c after held touch m member
    rcases touches_buffer touch m member with old | ping
    · exact held m old
    · exact ⟨_, ping, keepAlive⟩

def RequestTyped : PeerEvent → Prop
  | .request _ req => req.pieceIndex < 2 ^ 32 ∧ req.offset < 2 ^ 32 ∧ req.length ≤ kBlockSize
  | _ => True

theorem effect_typed {c : PeerConnection} {id : Nat} {frequency : List Nat} {out : List PeerEvent}
    {msg : Bytes} {handled : Handled} (effect : PeerConnection.Effect c id frequency out msg handled)
    (typed : ∀ event ∈ out, RequestTyped event) (event : PeerEvent) (member : event ∈ handled.out) :
    RequestTyped event := by
  have appended : ∀ new : PeerEvent, event ∈ out ++ [new] → RequestTyped new → RequestTyped event := by
    intro new inside good
    rcases List.mem_append.mp inside with old | last
    · exact typed event old
    · rw [List.mem_singleton.mp last]
      exact good
  cases effect with
  | unchoked => exact appended _ member trivial
  | choked => exact appended _ member trivial
  | asked req unchoked small index offset => exact appended _ member ⟨index, offset, small⟩
  | delivered k block size answered => exact appended _ member trivial
  | withdrawn req => exact typed event (eraseLast_subset _ _ _ member)
  | _ => exact typed event member

theorem acts_typed {w next : World} (moves : Acts w next)
    (typed : ∀ event ∈ w.out, RequestTyped event) : ∀ event ∈ next.out, RequestTyped event := by
  have step : ∀ state after a, Act.Own a → (∀ event ∈ state.out, RequestTyped event) →
      act state a = some after → ∀ event ∈ after.out, RequestTyped event := by
    intro state after a own before moved event member
    rcases act_events own moved event member with
      old | joined | ⟨id, c, -, dropped⟩ | ⟨id, c, msg, rest, handled, -, -, effect, inside⟩
    · exact before event old
    · rw [joined]
      trivial
    · rw [dropped]
      trivial
    · exact effect_typed effect before event inside
  exact Reaches.preserves step moves typed

structure Custody (sha1 : Bytes → Bytes) (t : TorrentFile) (f : Flow) : Prop where
  sound : Sound sha1 t f.session.pieces f.session.disk f.session.store
  room : f.session.peers.Room
  typed : ∀ event ∈ f.queue, RequestTyped event
  queued : Buffers (Genuine t f.session.pieces (onDisk f.session.disk f.session.store))
    f.session.peers.conns

section Moves

variable {sha1 : Bytes → Bytes} {kernel : Kernel} {t : TorrentFile} {s : Session}

theorem release_have (pieces : PieceManager) (reqs : List BlockRequest) :
    (pieces.release reqs).have_ = pieces.have_ := by
  induction reqs generalizing pieces with
  | nil => rfl
  | cons req reqs ih =>
    rw [PieceManager.release_cons, ih]

theorem Genuine.mono {pieces next : PieceManager} {array after : Bytes}
    (kept : ∀ i, pieces.have_.get i = true →
      next.have_.get i = true ∧ pieceBytes t after i = pieceBytes t array i)
    (message : Message) (genuine : Genuine t pieces array message) : Genuine t next after message := by
  cases message with
  | piece index offset data =>
    obtain ⟨held, inside, bytes⟩ := genuine
    obtain ⟨still, same⟩ := kept index held
    exact ⟨still, inside, by rw [same]; exact bytes⟩
  | _ => trivial

theorem Judged.kept {judged : Session} {id : Nat} {block : Block} {result : BlockResult}
    {hosts : List Bytes} (geometry : Geometry t) (sound : Sound sha1 t s.pieces s.disk s.store)
    (outcome : Judged sha1 kernel s id block result hosts judged) (i : Nat)
    (held : s.pieces.have_.get i = true) :
    judged.pieces.have_.get i = true ∧
      pieceBytes t (onDisk judged.disk judged.store) i = pieceBytes t (onDisk s.disk s.store) i := by
  cases outcome with
  | rejected count piece => exact ⟨held, rfl⟩
  | incomplete count pp b pieces fits verdict =>
    cases verdict
    exact ⟨held, rfl⟩
  | failed count pp b pieces piece fits verdict =>
    cases verdict
    exact ⟨held, rfl⟩
  | verified count pp b pieces piece written fits verdict stored =>
    obtain ⟨-, -, -, size⟩ := PieceManager.filedPiece_facts geometry sound.valid fits
    cases verdict with
    | verified _ full right marked =>
      obtain ⟨-, -, -, bits⟩ := PieceManager.markHave_valid
        (PieceManager.erase_valid sound.valid block.pieceIndex) block.pieceIndex fits.counted
        fits.wanted (by simp) marked
      refine ⟨by rw [bits i, held, Bool.or_true], ?_⟩
      have inside := sound.valid.inside block.pieceIndex fits.counted
      have there := sound.valid.inside i (sound.valid.bits ▸ Bitfield.get_inside _ i held)
      have different : i ≠ block.pieceIndex := by
        rintro rfl
        rw [fits.wanted] at held
        cases held
      have last := geometry.piece_end block.pieceIndex inside
      have apart := geometry.pieces_apart i block.pieceIndex there inside different
      obtain ⟨-, same⟩ := sound.written geometry kernel block.pieceIndex _ fits.counted size stored
      rw [pieceBytes, same, slice_splice_disjoint _ _ _ _ _ (by rw [sound.width]; omega)
        (by rw [size]; exact apart)]
      rfl

/-- Serving a request queues exactly the requested slice of a kept piece, or nothing. -/
inductive Served (t : TorrentFile) (s : Session) (id : Nat) (req : BlockRequest) : Session → Prop
  | ignored (read : Store) (same : read.content = s.store.content) :
      Served t s id req { s with store := read }
  | sent (read : Store) (same : read.content = s.store.content)
      (held : s.pieces.have_.get req.pieceIndex = true) (space : s.peers.canQueue id = true)
      (inside : req.offset + req.length ≤ pieceSize t req.pieceIndex) (count : Nat) :
      Served t s id req { s with
        store := read
        peers := s.peers.sendPiece id req.pieceIndex req.offset
          (slice (pieceBytes t (onDisk s.disk s.store) req.pieceIndex) req.offset req.length)
        uploaded := count }

theorem serve_cases (geometry : Geometry t) (sound : Sound sha1 t s.pieces s.disk s.store)
    (id : Nat) (req : BlockRequest) (next : Session) (typed : RequestTyped (.request id req))
    (served : s.onRequest kernel id req = .ok next) : Served t s id req next := by
  obtain ⟨-, offset_u32, small⟩ := typed
  rw [kBlockSize] at small
  unfold onRequest PieceManager.havePiece at served
  split at served
  · cases served
    exact Served.ignored s.store rfl
  · rename_i present
    split at served
    · cases served
      exact Served.ignored s.store rfl
    · rename_i full
      have held : s.pieces.have_.get req.pieceIndex = true := by simpa using present
      have space : s.peers.canQueue id = true := by simpa using full
      have index : req.pieceIndex < s.disk.pieceCount := by
        rw [sound.mounted.pieceCount, ← sound.valid.pieceCount, ← sound.valid.bits]
        exact Bitfield.get_inside _ _ held
      by_cases inside : req.offset + req.length ≤ pieceSize t req.pieceIndex
      · obtain ⟨read, performed, same, -⟩ := readBlock_ok kernel sound.mounted geometry s.store
          (onDisk s.disk s.store) sound.holds sound.width req.pieceIndex req.offset req.length index inside
        rw [performed, ← slice_slice _ _ (pieceSize t req.pieceIndex) _ _ inside] at served
        cases served
        exact Served.sent read same held space inside _
      · rw [readBlock_past kernel sound.mounted s.store req.pieceIndex req.offset req.length
          index (by omega) offset_u32 (by omega)] at served
        cases served
        exact Served.ignored s.store rfl

theorem greeted_buffer (have_ : Bitfield) (complete : Bool) (c : PeerConnection) :
    (greeted have_ complete c).writeBuffer = c.writeBuffer ++
      ([Message.bytes (.bitfield have_.bytes), Message.bytes .unchoke] ++
        if complete = true then [] else [Message.bytes .interested]) := by
  cases complete <;> simp [greeted, PeerConnection.enqueue]

theorem greet_conns (id : Nat) (good : Message → Prop)
    (bitfield : good (.bitfield s.pieces.have_.bytes)) (unchoke : good .unchoke)
    (interested : good .interested) (buffers : Buffers good s.peers.conns) :
    Buffers good (s.onJoined id).peers.conns := by
  rw [onJoined_peers]
  intro other after found m member
  obtain ⟨c, present, same | ⟨-, same⟩⟩ := find_modify_some found
  · exact buffers other c present m (same ▸ member)
  · rw [same, greeted_buffer] at member
    rcases List.mem_append.mp member with old | new
    · exact buffers other c present m old
    · have kinds : m = Message.bytes (.bitfield s.pieces.have_.bytes) ∨ m = Message.bytes .unchoke ∨
          m = Message.bytes .interested := by
        rcases List.mem_append.mp new with always | sometimes
        · rcases List.mem_cons.mp always with first | second
          · exact Or.inl first
          · exact Or.inr (Or.inl (List.mem_singleton.mp second))
        · split at sometimes
          · cases sometimes
          · exact Or.inr (Or.inr (List.mem_singleton.mp sometimes))
      rcases kinds with first | second | third
      · exact ⟨_, first, bitfield⟩
      · exact ⟨_, second, unchoke⟩
      · exact ⟨_, third, interested⟩

theorem pollRound_acts (order : List Nat) (revents : Nat → Nat) (env : Env) (room : s.peers.Room) :
    Acts ⟨s.peers, []⟩
        ⟨(s.pollRound order revents env).1.peers, (s.pollRound order revents env).2⟩ ∧
      (s.pollRound order revents env).1.peers.Room := by
  have built := buildFds_apart s.peers order
  obtain ⟨handled, last⟩ := handleEvents_acts env (answered (s.peers.buildFds order).1 revents)
    (s.peers.buildFds order).2 (built.room room)
  exact ⟨(vets_acts (built.vets [] s.peers)).trans handled, last⟩

theorem modify_room (peers : PeerManager) (id : Nat) (change : PeerConnection → PeerConnection)
    (room : peers.Room) : ({ peers with conns := peers.conns.modify id change } : PeerManager).Room := by
  have limit : peers.conns.size + peers.inbound.length + peers.outbound.length ≤ peers.maxPeers := room
  simp only [Room, Table.size_modify]
  exact limit

theorem joined_room (id : Nat) (room : s.peers.Room) : (s.onJoined id).peers.Room := by
  rw [onJoined_peers]
  exact modify_room _ _ _ room

theorem Judged.room {judged : Session} {id : Nat} {block : Block} {result : BlockResult}
    {hosts : List Bytes} (outcome : Judged sha1 kernel s id block result hosts judged)
    (room : s.peers.Room) : judged.peers.Room := by
  cases outcome with
  | verified count pp b pieces piece written fits verdict stored =>
    have limit : s.peers.conns.size + s.peers.inbound.length + s.peers.outbound.length ≤
        s.peers.maxPeers := room
    simp only [Room, broadcastHave, Table.size_update]
    exact limit
  | _ => exact room

theorem Judged.buffers {judged : Session} {id : Nat} {block : Block} {result : BlockResult}
    {hosts : List Bytes} {good : Message → Prop}
    (outcome : Judged sha1 kernel s id block result hosts judged)
    (announce : ∀ index, good (.have_ index)) (buffers : Buffers good s.peers.conns) :
    Buffers good judged.peers.conns := by
  cases outcome with
  | verified count pp b pieces piece written fits verdict stored =>
    exact buffers.update _ (fun _ _ => Or.inr ⟨.have_ piece.index, announce _, rfl⟩)
  | _ => exact buffers

theorem expel_conns (id : Nat) (c : PeerConnection) (found : s.peers.conns.find? id = some c) :
    (expel s id c).peers.conns = s.peers.conns.erase id := by
  simp only [expel, PeerManager.drop, found]

theorem Custody.quiet (geometry : Geometry t) {f next : Flow} (custody : Custody sha1 t f)
    (move : Quiet sha1 kernel f next) : Custody sha1 t next := by
  obtain ⟨sound, room, typed, queued⟩ := custody
  cases move with
  | build order =>
    have apart := buildFds_apart f.session.peers order
    exact ⟨sound, apart.room room, typed, apart.conns ▸ queued⟩
  | round order revents env idle =>
    obtain ⟨acts, kept⟩ := pollRound_acts order revents env room
    have asked := acts_typed acts (fun event member => absurd member List.not_mem_nil)
    have intact := Buffers.acts acts (fun _ _ => trivial) trivial queued
    exact ⟨sound, kept, asked, intact⟩
  | dial env fresh =>
    have apart := addPeers_apart env f.session.peers fresh
    exact ⟨sound, apart.room room, typed, by dsimp only; rw [apart.conns]; exact queued⟩
  | complete => exact ⟨sound, room, typed, queued⟩
  | release event rest reqs front gives =>
    rw [front] at typed
    have have_ := release_have f.session.pieces reqs
    refine ⟨sound.states (PieceManager.release_valid sound.valid reqs) have_, room,
      fun event member => typed event (by simp [member]), ?_⟩
    exact queued.weaken (fun message genuine =>
      genuine.mono (fun i held => ⟨by rw [have_]; exact held, rfl⟩))
  | join id rest front =>
    rw [front] at typed
    refine ⟨?_, joined_room id room, fun event member => typed event (by simp [member]), ?_⟩
    · simp only [onJoined, greet]
      exact sound
    · exact greet_conns id _ trivial trivial trivial queued
  | serve id req rest session front served =>
    rw [front] at typed
    have others : ∀ event ∈ rest, RequestTyped event := fun event member => typed event (by simp [member])
    cases serve_cases geometry sound id req session (typed _ (by simp)) served with
    | ignored read same =>
      have kept : onDisk f.session.disk read = onDisk f.session.disk f.session.store := by
        rw [onDisk, onDisk, same]
      exact ⟨sound.content same, room, others, by dsimp only; rw [kept]; exact queued⟩
    | sent read same held space inside count =>
      have kept : onDisk f.session.disk read = onDisk f.session.disk f.session.store := by
        rw [onDisk, onDisk, same]
      have index := sound.valid.inside req.pieceIndex
        (sound.valid.bits ▸ Bitfield.get_inside _ _ held)
      have width : (slice (pieceBytes t (onDisk f.session.disk f.session.store) req.pieceIndex)
          req.offset req.length).length = req.length := by
        apply slice_length
        rw [pieceBytes, slice_length _ _ _ (by rw [sound.width]; exact geometry.piece_end _ index)]
        exact inside
      refine ⟨sound.content same, modify_room _ _ _ room, others, ?_⟩
      dsimp only
      rw [kept]
      refine queued.send id (.piece req.pieceIndex req.offset _) (fun c => c) (fun _ => rfl) ⟨held, ?_, ?_⟩
      · rw [width]
        exact inside
      · rw [width]
  | file id block rest result taken judged hosts front idle took verdict =>
    rw [front] at typed
    have outcome := judge_cases sha1 kernel f.session taken judged id block result hosts took verdict
    refine ⟨sound.judged geometry outcome, outcome.room room,
      fun event member => typed event (by simp [member]), ?_⟩
    refine outcome.buffers (fun _ => trivial) (queued.weaken ?_)
    exact fun message genuine => genuine.mono (outcome.kept geometry sound)
  | convict host hosts listed => exact ⟨sound, room, typed, queued⟩
  | expel id c found =>
    have have_ := release_have f.session.pieces (requestsOf c.pending)
    refine ⟨sound.states (PieceManager.release_valid sound.valid _) have_,
      (drop_frame f.session.peers id []).room room, typed, ?_⟩
    rw [expel_conns id c found]
    exact (queued.erase id).weaken (fun message genuine =>
      genuine.mono (fun i held => ⟨by dsimp only [expel]; rw [have_]; exact held, rfl⟩))
  | expire id c cutoff found =>
    have have_ := release_have f.session.pieces (takeStale c.pending cutoff).1
    refine ⟨sound.states (PieceManager.release_valid sound.valid _) have_, modify_room _ _ _ room,
      typed, ?_⟩
    refine (queued.update _ ?_).weaken (fun message genuine =>
      genuine.mono (fun i held => ⟨by dsimp only; rw [have_]; exact held, rfl⟩))
    intro other old
    split <;> exact Or.inl rfl

theorem Custody.ask (geometry : Geometry t) {f : Flow} {next : Session} (custody : Custody sha1 t f)
    (ask : Ask f.session next) : Custody sha1 t { f with session := next } := by
  obtain ⟨sound, room, typed, queued⟩ := custody
  cases ask with
  | ask id c choice now req pieces found unchoked slot picked =>
    obtain ⟨opened, pp, b, pick⟩ := PieceManager.pickBlock_some geometry sound.valid _ _ _ _ _ _ picked
    have have_ := pick.same_have
    refine ⟨sound.states pick.next_valid have_, modify_room _ _ _ room, typed, ?_⟩
    refine (queued.send id (.request req)
      (fun c => { c with pending := c.pending ++ [PendingRequest.mk req now] }) (fun _ => rfl)
      trivial).weaken (fun message genuine =>
        genuine.mono (fun i held => ⟨by dsimp only; rw [have_]; exact held, rfl⟩))
  | decline id c choice pieces picked =>
    have same := PieceManager.pickBlock_none geometry sound.valid _ _ _ _ _ picked
    subst same
    exact ⟨sound, room, typed, queued⟩

end Moves

theorem begins_geometry {sha1 : Bytes → Bytes} {kernel : Kernel} {t : TorrentFile} {sys : Sys}
    (begins : Begins sha1 kernel t sys) : Geometry t := by
  obtain ⟨⟨data, accepted⟩, -⟩ := begins
  exact accepted_geometry sha1 data t accepted

theorem begins_fresh {sha1 : Bytes → Bytes} {kernel : Kernel} {t : TorrentFile} {sys : Sys}
    (begins : Begins sha1 kernel t sys) : Fresh sha1 t sys.session := by
  have geometry := begins_geometry begins
  obtain ⟨-, ⟨peerId, listenSock, downloadDir, initialPeers, env, store, created⟩, -⟩ := begins
  exact create_fresh geometry created

theorem reached_geometry {sha1 : Bytes → Bytes} {kernel : Kernel} {t : TorrentFile} {sys : Sys}
    (reached : Reached sha1 kernel t sys) : Geometry t := by
  induction reached with
  | start sys begins => exact begins_geometry begins
  | next _ _ _ _ _ ih => exact ih

theorem begins_custody {sha1 : Bytes → Bytes} {kernel : Kernel} {t : TorrentFile} {sys : Sys}
    (begins : Begins sha1 kernel t sys) : Custody sha1 t sys.flow := by
  have fresh := begins_fresh begins
  obtain ⟨-, -, phase, -, -⟩ := begins
  refine ⟨fresh.sound, fresh.room, ?_, ?_⟩
  · simp [Sys.flow, phase, Phase.queue]
  · intro id c found
    simp only [Sys.flow, fresh.conns, Table.find_empty] at found
    cases found

theorem reached_custody {sha1 : Bytes → Bytes} {kernel : Kernel} {t : TorrentFile} {sys : Sys}
    (reached : Reached sha1 kernel t sys) : Custody sha1 t sys.flow := by
  have geometry := reached_geometry reached
  exact reached_invariant (Custody sha1 t) (fun _ begins => begins_custody begins)
    (fun _ _ custody move => custody.quiet geometry move)
    (fun _ _ custody ask => custody.ask geometry ask) reached

theorem Sound.digest {sha1 : Bytes → Bytes} {t : TorrentFile} {pieces : PieceManager}
    {disk : DiskManager} {store : Store} (sound : Sound sha1 t pieces disk store) (i : Nat)
    (held : pieces.have_.get i = true) :
    t.pieces[i]? = some (sha1 (pieceBytes t (onDisk disk store) i)) := by
  have inside := sound.valid.inside i (sound.valid.bits ▸ Bitfield.get_inside _ i held)
  have passed := of_decide_eq_true (sound.verified i held)
  rw [sound.valid.torrent, List.getD_eq_getElem?_getD, List.getElem?_eq_getElem inside,
    Option.getD_some] at passed
  rw [List.getElem?_eq_getElem inside, passed.2]

theorem Sound.complete {sha1 : Bytes → Bytes} {t : TorrentFile} {pieces : PieceManager}
    {disk : DiskManager} {store : Store} (sound : Sound sha1 t pieces disk store)
    (complete : pieces.isComplete = true) (i : Nat) (counted : i < pieces.pieceCount) :
    pieces.have_.get i = true := by
  have count : pieces.haveCount = pieces.pieceCount := of_decide_eq_true complete
  have all : (List.range pieces.pieceCount).countP pieces.have_.get =
      (List.range pieces.pieceCount).length := by
    rw [← sound.valid.haves, count, List.length_range]
  exact List.countP_eq_length.mp all i (List.mem_range.mpr counted)

/-- In every state of every run the kept pieces are on disk and pass, every queued Piece
message is a slice of such a piece, a request is answered by exactly the slice it names,
and a complete download is complete on disk. -/
theorem only_verified_bytes (sha1 : Bytes → Bytes) (kernel : Kernel) (t : TorrentFile)
    (few : t.pieces.length < 2 ^ 32) (sys : Sys) (reached : Reached sha1 kernel t sys) :
    (∀ i, sys.session.pieces.have_.get i = true →
      t.pieces[i]? = some (sha1 (slice (onDisk sys.session.disk sys.session.store)
        (i * t.pieceLength.toNat) (pieceSize t i)))) ∧
    (∀ id c, sys.session.peers.conns.find? id = some c → ∀ m ∈ c.writeBuffer,
      ∃ message : Message, m = message.bytes ∧ ∀ index offset data, message = .piece index offset data →
        sys.session.pieces.have_.get index = true ∧ offset + data.length ≤ pieceSize t index ∧
        data = slice (onDisk sys.session.disk sys.session.store)
          (index * t.pieceLength.toNat + offset) data.length) ∧
    (∀ id req rest order next, sys.phase = .dispatching (.request id req :: rest) →
      step sha1 kernel sys (.dispatch order) = some next →
      next.session.peers = sys.session.peers ∨
        sys.session.pieces.have_.get req.pieceIndex = true ∧
        req.offset + req.length ≤ pieceSize t req.pieceIndex ∧
        next.session.peers = sys.session.peers.sendPiece id req.pieceIndex req.offset
          (slice (onDisk sys.session.disk sys.session.store)
            (req.pieceIndex * t.pieceLength.toNat + req.offset) req.length)) ∧
    (sys.session.pieces.isComplete = true → ∀ i < t.pieces.length,
      t.pieces[i]? = some (sha1 (slice (onDisk sys.session.disk sys.session.store)
        (i * t.pieceLength.toNat) (pieceSize t i)))) := by
  have geometry := reached_geometry reached
  obtain ⟨sound, -, typed, queued⟩ := reached_custody reached
  refine ⟨sound.digest, ?_, ?_, ?_⟩
  · intro id c found m member
    obtain ⟨message, same, genuine⟩ := queued id c found m member
    refine ⟨message, same, ?_⟩
    rintro index offset data rfl
    obtain ⟨held, inside, bytes⟩ := genuine
    rw [pieceBytes, slice_slice _ _ _ _ _ inside] at bytes
    exact ⟨held, inside, bytes⟩
  · intro id req rest order next here moves
    have front : PeerEvent.request id req ∈ sys.flow.queue := by
      simp [Sys.flow, here, Phase.queue]
    simp only [step, here, dispatch, dispatchOther] at moves
    split at moves
    · cases moves
    · rename_i session served
      cases moves
      cases serve_cases geometry sound id req session (typed _ front) served with
      | ignored read same => exact Or.inl rfl
      | sent read same held space inside count =>
        refine Or.inr ⟨held, inside, ?_⟩
        rw [← slice_slice _ _ (pieceSize t req.pieceIndex) _ _ inside]
        rfl
  · intro complete i inside
    apply sound.digest i
    apply sound.complete complete i
    rw [sound.valid.pieceCount, Nat.mod_eq_of_lt few]
    exact inside

section Example

def oneByteInfo : Bytes :=
  ascii "d4:infod6:lengthi1e4:name1:a12:piece lengthi1e6:pieces20:" ++ List.replicate 20 0 ++ ascii "ee"

def constantDigest : Bytes → Bytes := fun _ => List.replicate 20 0

def oneByte : TorrentFile where
  name := ascii "a"
  pieceLength := 1
  pieces := [List.replicate 20 0]
  infoHash := List.replicate 20 0
  length := some 1
  totalLength := 1

def quietEnv : Env where
  recv := fun _ => .transient
  send := fun _ => .transient
  soError := fun _ => false
  accepts := []
  dial := fun _ => .noSocket
  inetPton := fun _ => false
  clock := fun _ => 0
  order := []

def wholeKernel : Kernel := ⟨fun _ => 2 ^ 32, fun _ => true⟩

theorem oneByte_accepted : parseTorrent constantDigest oneByteInfo = .ok oneByte := by decide +kernel

def spotDigest : Bytes → Bytes := fun data =>
  if data = [1] then List.replicate 20 0 else List.replicate 20 1

def oneByteWanted : TorrentFile := { oneByte with infoHash := List.replicate 20 1 }

theorem oneByteWanted_accepted : parseTorrent spotDigest oneByteInfo = .ok oneByteWanted := by
  decide +kernel

def fourInfo : Bytes :=
  ascii "d4:infod6:lengthi4e4:name1:a12:piece lengthi1e6:pieces80:" ++ List.replicate 80 0 ++ ascii "ee"

def fourPieces : TorrentFile where
  name := ascii "a"
  pieceLength := 1
  pieces := List.replicate 4 (List.replicate 20 0)
  infoHash := List.replicate 20 1
  length := some 4
  totalLength := 4

theorem fourPieces_accepted : parseTorrent spotDigest fourInfo = .ok fourPieces := by decide +kernel

def twoBlockInfo : Bytes :=
  ascii "d4:infod6:lengthi16385e4:name1:a12:piece lengthi16385e6:pieces20:" ++
    List.replicate 20 0 ++ ascii "ee"

def headDigest : Bytes → Bytes := fun data =>
  if data.head? = some 1 then List.replicate 20 0 else List.replicate 20 1

def twoBlocks : TorrentFile where
  name := ascii "a"
  pieceLength := 16385
  pieces := [List.replicate 20 0]
  infoHash := List.replicate 20 1
  length := some 16385
  totalLength := 16385

theorem twoBlocks_accepted : parseTorrent headDigest twoBlockInfo = .ok twoBlocks := by
  decide +kernel

def rehearse (sha1 : Bytes → Bytes) (t : TorrentFile) (inputs : List Input) : Option Sys :=
  match create sha1 wholeKernel t (List.replicate 20 7) (some 3) [] [] quietEnv ⟨fun _ => [], 0, []⟩ with
  | .error _ => none
  | .ok s => Transition.run (step sha1 wholeKernel) ⟨s, .polling, [], []⟩ inputs

theorem created_begins {sha1 : Bytes → Bytes} {kernel : Kernel} {t : TorrentFile} {peerId : Bytes}
    {listenSock : Option Nat} {downloadDir : Path} {initialPeers : List Peer} {env : Env} {store : Store}
    {s : Session}
    (accepted : ∃ data, parseTorrent sha1 data = .ok t)
    (created : create sha1 kernel t peerId listenSock downloadDir initialPeers env store = .ok s) :
    Begins sha1 kernel t ⟨s, .polling, [], []⟩ :=
  ⟨accepted, ⟨peerId, listenSock, downloadDir, initialPeers, env, store, created⟩, rfl, rfl, rfl⟩

theorem rehearse_begins {sha1 : Bytes → Bytes} {t : TorrentFile} {inputs : List Input} {sys : Sys}
    (accepted : ∃ data, parseTorrent sha1 data = .ok t) (ran : rehearse sha1 t inputs = some sys) :
    ∃ start, Begins sha1 wholeKernel t start ∧
      Transition.run (step sha1 wholeKernel) start inputs = some sys := by
  unfold rehearse at ran
  split at ran
  · cases ran
  · rename_i s created
    exact ⟨_, created_begins accepted created, ran⟩

theorem rehearse_reached {sha1 : Bytes → Bytes} {t : TorrentFile} {inputs : List Input} {sys : Sys}
    (accepted : ∃ data, parseTorrent sha1 data = .ok t) (ran : rehearse sha1 t inputs = some sys) :
    Reached sha1 wholeKernel t sys := by
  obtain ⟨start, begins, moves⟩ := rehearse_begins accepted ran
  exact (Transition.Reachable.start start begins).run moves

def arrives (place : Nat) (host : Bytes) (chunk : Bytes) : Input :=
  .poll [] (fun i => if i = place then pollIn else 0)
    { quietEnv with recv := fun _ => .data chunk, accepts := [⟨5, host, 1⟩] }

def roundEnd : List Input :=
  [.settle quietEnv [] 0 [],
    .fill ⟨[], fun _ _ => ⟨[], 0⟩, fun _ _ => 0, [], fun _ => ⟨[], 0⟩, fun _ => 0⟩]

def welcome (t : TorrentFile) (host : Bytes) : List Input :=
  arrives 0 host [] :: roundEnd ++
    [arrives 1 host (Wire.buildHandshake t (List.replicate 20 8)), .dispatch (fun _ => [])] ++ roundEnd ++
    [arrives 1 host [0, 0, 0, 2, 5, 128, 0, 0, 0, 1, 1], .dispatch (fun _ => [])] ++ roundEnd

def passingOn : List Input :=
  welcome oneByteWanted (ascii "h") ++
    [arrives 1 (ascii "h") (Message.bytes (.piece 0 0 [1])), .dispatch (fun _ => [])] ++ roundEnd ++
    [arrives 1 (ascii "h") (Message.bytes (.request ⟨0, 0, 1⟩))]

end Example

/-- A block that came from the peer is asked for by it and read back from the disk. -/
theorem only_verified_bytes_passed_on :
    ∃ sys next, Reached spotDigest wholeKernel oneByteWanted sys ∧
      sys.phase = .dispatching [.request 0 ⟨0, 0, 1⟩] ∧
      step spotDigest wholeKernel sys (.dispatch (fun _ => [])) = some next ∧
      oneByteWanted.pieces[0]? =
        some (spotDigest (slice (onDisk sys.session.disk sys.session.store) 0 1)) ∧
      next.session.peers = sys.session.peers.sendPiece 0 0 0
        (slice (onDisk sys.session.disk sys.session.store) 0 1) ∧
      next.session.peers ≠ sys.session.peers := by
  have seen : (rehearse spotDigest oneByteWanted passingOn).bind (fun sys =>
      (step spotDigest wholeKernel sys (.dispatch (fun _ => []))).map (fun next =>
        (sys.phase, sys.session.pieces.have_.get 0, (sys.session.peers.conns.find? 0).map (·.writeBuffer.length),
          (next.session.peers.conns.find? 0).map (·.writeBuffer.length)))) =
      some (.dispatching [.request 0 ⟨0, 0, 1⟩], true, some 6, some 7) := by
    decide +kernel
  obtain ⟨sys, ran, rest⟩ := Option.bind_eq_some_iff.mp seen
  obtain ⟨next, moves, shown⟩ := Option.map_eq_some_iff.mp rest
  simp only [Prod.mk.injEq] at shown
  obtain ⟨phase, held, before, after⟩ := shown
  have reached := rehearse_reached ⟨_, oneByteWanted_accepted⟩ ran
  obtain ⟨kept, -, answered, -⟩ :=
    only_verified_bytes spotDigest wholeKernel oneByteWanted (by decide) sys reached
  have digest := kept 0 held
  have size : pieceSize oneByteWanted 0 = 1 := by decide +kernel
  rw [size, Nat.zero_mul] at digest
  have changed : next.session.peers ≠ sys.session.peers := by
    intro same
    rw [same, before] at after
    cases after
  obtain same | ⟨-, -, sent⟩ := answered 0 _ _ _ next phase moves
  · exact absurd same changed
  · rw [Nat.zero_mul] at sent
    exact ⟨sys, next, reached, phase, moves, digest, sent, changed⟩

end TorrentPeer.Session
