import TorrentPeer.Runtime.Outstanding

/-! The constructor of `Session` on whatever is in the files: it succeeds, and it takes over exactly
the pieces whose bytes pass. From then on no event makes `dispatch` throw. -/

namespace TorrentPeer.Session

open Splice Torrent DiskManager PieceManager PeerManager Wire

section Recheck

variable (sha1 : Bytes → Bytes) (kernel : Kernel) {t : TorrentFile} {disk : DiskManager}

theorem recheck_returns {pieces : PieceManager} (valid : Valid t pieces) (i : Nat) (data : Bytes)
    (counted : i < pieces.pieceCount) (few : pieces.pieceCount + 7 < 2 ^ 32) :
    ∃ checked, pieces.recheck sha1 i data = .ok checked ∧
      ∀ j, checked.have_.get j = (decide (j = i) && pieces.verify sha1 i data || pieces.have_.get j) := by
  unfold PieceManager.recheck
  split
  · rename_i passed
    obtain ⟨field, stored⟩ := Bitfield.set_succeeds pieces.have_ i (by rw [valid.bits]; exact counted)
      (by rw [valid.bits, valid.bytes]) (by rw [valid.bits]; exact few)
    refine ⟨_, by rw [markHave, stored]; rfl, ?_⟩
    intro j
    rw [passed, Bool.and_true]
    exact Bitfield.set_get pieces.have_ field i j stored
  · rename_i failed
    rw [Bool.not_eq_true] at failed
    refine ⟨pieces, rfl, ?_⟩
    intro j
    rw [failed, Bool.and_false, Bool.false_or]

theorem recheckAll_returns (geometry : Geometry t) (rest : List Nat) (pieces : PieceManager) (store : Store)
    (sound : Sound sha1 t pieces disk store) (idle : ∀ index, pieces.active.find? index = none)
    (distinct : rest.Nodup) (fresh : ∀ i ∈ rest, i < pieces.pieceCount ∧ pieces.have_.get i = false)
    (few : pieces.pieceCount + 7 < 2 ^ 32) :
    ∃ last read, recheckAll sha1 kernel disk t rest pieces store = .ok (last, read) ∧
      read.content = store.content ∧
      ∀ j, last.have_.get j =
        (decide (j ∈ rest) && pieces.verify sha1 j (pieceBytes t (onDisk disk store) j) || pieces.have_.get j) := by
  induction rest generalizing pieces store with
  | nil =>
    refine ⟨pieces, store, rfl, rfl, ?_⟩
    intro j
    simp
  | cons i rest ih =>
    obtain ⟨absent, others⟩ := List.nodup_cons.mp distinct
    obtain ⟨counted, unset⟩ := fresh i (List.mem_cons_self ..)
    have inside := sound.valid.inside i counted
    have cap := geometry.pieceLength_cap
    have size := geometry.pieceSize_le i inside
    have index : i < disk.pieceCount := by
      rw [sound.mounted.pieceCount, ← sound.valid.pieceCount]
      exact counted
    obtain ⟨after, performed, same, -⟩ := readBlock_ok kernel sound.mounted geometry store
      (onDisk disk store) sound.holds sound.width i 0 (pieceSize t i) index (by omega)
    rw [Nat.add_zero] at performed
    obtain ⟨checked, one, marks⟩ := recheck_returns sha1 sound.valid i
      (pieceBytes t (onDisk disk store) i) counted few
    obtain ⟨kept, still, count, unchanged⟩ := recheck_sound i sound idle counted unset one
    have array : onDisk disk after = onDisk disk store := by rw [onDisk, onDisk, same]
    obtain ⟨last, read, finished, content, exactly⟩ := ih checked after (kept.content same) still others
      (by
        intro j member
        obtain ⟨below, clear⟩ := fresh j (List.mem_cons_of_mem _ member)
        have different : j ≠ i := fun equal => absent (equal ▸ member)
        exact ⟨by rw [count]; exact below, by rw [unchanged j different]; exact clear⟩)
      (by rw [count]; exact few)
    refine ⟨last, read, ?_, content.trans same, ?_⟩
    · rw [recheckAll, Nat.mod_eq_of_lt (by omega), performed]
      have checked_ok : pieces.recheck sha1 i (slice (onDisk disk store) (i * t.pieceLength.toNat)
          (pieceSize t i)) = .ok checked := one
      simp only [checked_ok]
      exact finished
    · intro j
      rw [exactly j, array, marks j,
        verify_congr sha1 (kept.valid.torrent.trans sound.valid.torrent.symm)]
      by_cases here : j = i
      · subst here
        simp [absent]
      · simp [here]

end Recheck

section Construction

variable (sha1 : Bytes → Bytes) (kernel : Kernel) {t : TorrentFile} {peerId : Bytes} (listenSock : Option Nat)
  (downloadDir : Path) (initialPeers : List Peer) (env : Env) (store : Store)

/-- The constructor takes over exactly the pieces that the opened files hold. -/
theorem create_returns (geometry : Geometry t) (few : t.pieces.length + 7 < 2 ^ 32) (named : peerId.length = 20) :
    ∃ s opened, create sha1 kernel t peerId listenSock downloadDir initialPeers env store = .ok s ∧
      DiskManager.create kernel t downloadDir store = .ok s.disk opened ∧
      s.store.content = opened.content ∧
      ∀ i, s.pieces.have_.get i = (decide (i < t.pieces.length) &&
        s.pieces.verify sha1 i (pieceBytes t (onDisk s.disk s.store) i)) := by
  obtain ⟨disk, opened, array, mounted_by, mounted, -, width, holds⟩ := create_ok kernel geometry downloadDir store
  have content := onDisk_eq mounted holds width
  have start : Sound sha1 t (PieceManager.create t) disk opened := by
    refine ⟨PieceManager.create_valid t, mounted, by rw [content, width], by rw [content]; exact holds, ?_⟩
    intro i held
    simp [PieceManager.create] at held
  have count : (PieceManager.create t).pieceCount = t.pieces.length := Nat.mod_eq_of_lt (by omega)
  obtain ⟨pieces, read, checked, same, exactly⟩ := recheckAll_returns sha1 kernel geometry
    (List.range (PieceManager.create t).pieceCount) (PieceManager.create t) opened start (fun _ => rfl)
    List.nodup_range (fun i member => ⟨List.mem_range.mp member, Bitfield.get_ofBits _ i⟩) (by rw [count]; exact few)
  have torrent : pieces.torrent = (PieceManager.create t).torrent :=
    (recheckAll_sound geometry _ _ pieces opened read start (fun _ => rfl) List.nodup_range
      (fun i member => ⟨List.mem_range.mp member, Bitfield.get_ofBits _ i⟩) checked).1.valid.torrent
  obtain ⟨peers, managed⟩ : ∃ peers, PeerManager.create t peerId listenSock kMaxPeers = .ok peers := by
    rw [PeerManager.create, if_neg (not_not.mpr named)]
    exact ⟨_, rfl⟩
  obtain ⟨s, made, disk_same, store_same, pieces_same⟩ : ∃ s,
      create sha1 kernel t peerId listenSock downloadDir initialPeers env store = .ok s ∧
        s.disk = disk ∧ s.store = read ∧ s.pieces = pieces := by
    rw [create, mounted_by]
    simp only [managed, checked]
    exact ⟨_, rfl, rfl, rfl, rfl⟩
  have kept : onDisk disk read = onDisk disk opened := by rw [onDisk, onDisk, same]
  refine ⟨s, opened, made, by rw [disk_same]; exact mounted_by, by rw [store_same]; exact same, ?_⟩
  intro i
  have none_yet : (PieceManager.create t).have_.get i = false := Bitfield.get_ofBits _ i
  rw [disk_same, store_same, pieces_same, exactly i, kept, none_yet, Bool.or_false, verify_congr sha1 torrent]
  simp only [List.mem_range, count]

end Construction

section Dispatch

variable {sha1 : Bytes → Bytes} (kernel : Kernel) {t : TorrentFile}

theorem banAll_returns (order : Bytes → List Nat) (hosts : List Bytes) (s : Session) :
    ∃ next, banAll kernel order hosts s = .ok next := by
  induction hosts generalizing s with
  | nil => exact ⟨s, rfl⟩
  | cons host hosts ih =>
    obtain ⟨reqs, banned⟩ := ban_returns kernel s (order host) host
    rw [banAll, banned]
    exact ih _

theorem onRequest_returns (geometry : Geometry t) {s : Session} (sound : Sound sha1 t s.pieces s.disk s.store)
    (id : Nat) (req : BlockRequest) (typed : RequestTyped (.request id req)) :
    ∃ next, s.onRequest kernel id req = .ok next := by
  obtain ⟨-, offset_u32, small⟩ := typed
  rw [kBlockSize] at small
  unfold onRequest PieceManager.havePiece
  split
  · exact ⟨s, rfl⟩
  rename_i present
  split
  · exact ⟨s, rfl⟩
  have held : s.pieces.have_.get req.pieceIndex = true := by simpa using present
  have index : req.pieceIndex < s.disk.pieceCount := by
    rw [sound.mounted.pieceCount, ← sound.valid.pieceCount, ← sound.valid.bits]
    exact Bitfield.get_inside _ _ held
  by_cases inside : req.offset + req.length ≤ pieceSize t req.pieceIndex
  · obtain ⟨read, performed, -, -⟩ := readBlock_ok kernel sound.mounted geometry s.store
      (onDisk s.disk s.store) sound.holds sound.width req.pieceIndex req.offset req.length index inside
    rw [performed]
    exact ⟨_, rfl⟩
  · rw [readBlock_past kernel sound.mounted s.store req.pieceIndex req.offset req.length index (by omega)
      offset_u32 (by omega)]
    exact ⟨_, rfl⟩

theorem judge_returns (geometry : Geometry t) {s : Session} (sound : Sound sha1 t s.pieces s.disk s.store)
    {block : Block} {pp : PartialPiece} {b : Nat} (fits : Fits s.pieces block pp b) {result : BlockResult}
    {pieces : PieceManager} (verdict : Verdict sha1 s.pieces block pp b result pieces) (taken : Session)
    (disk : taken.disk = s.disk) (store : taken.store = s.store) :
    ∃ hosts judged, taken.judge kernel result = .ok (hosts, judged) := by
  cases verdict with
  | incomplete short => exact ⟨_, _, rfl⟩
  | failed full wrong => exact ⟨_, _, rfl⟩
  | verified _ full right stored =>
    obtain ⟨-, -, -, size⟩ := filedPiece_facts geometry sound.valid fits
    have inside := sound.valid.inside block.pieceIndex fits.counted
    have index : block.pieceIndex < s.disk.pieceCount := by
      rw [sound.mounted.pieceCount, ← sound.valid.pieceCount]
      exact fits.counted
    have last := geometry.piece_end block.pieceIndex inside
    obtain ⟨written, performed, -, -⟩ := writePiece_ok kernel sound.mounted geometry s.store
      (onDisk s.disk s.store) sound.holds sound.width ⟨block.pieceIndex, (filedPiece pp block b).data⟩ index
      (by dsimp only; omega)
    simp only [judge, disk, store, performed]
    exact ⟨_, _, rfl⟩

theorem onPiece_returns (geometry : Geometry t) {f : Flow} (custody : Custody sha1 t f) (balanced : Balanced f)
    {id : Nat} {block : Block} {rest : List PeerEvent} (front : f.queue = .piece id block :: rest)
    (few : t.pieces.length + 7 < 2 ^ 32) (order : Bytes → List Nat) :
    ∃ next, f.session.onPiece sha1 kernel order id block = .ok next := by
  have sound := custody.sound
  have requested := balanced.front id block rest front
  obtain ⟨result, pieces, filed⟩ := onBlock_returns geometry sound.valid sha1 block requested (by
    have count := sound.valid.pieceCount
    omega)
  obtain ⟨pp, fits, verdict⟩ := onBlock_accepts geometry sound.valid sha1 block result pieces requested filed
  obtain ⟨taken, took, disk, store⟩ : ∃ taken, f.session.takeBlock sha1 id block = .ok (result, taken) ∧
      taken.disk = f.session.disk ∧ taken.store = f.session.store := by
    rw [takeBlock, filed]
    exact ⟨_, rfl, rfl, rfl⟩
  obtain ⟨hosts, judged, verdict_ok⟩ := judge_returns kernel geometry sound fits verdict taken disk store
  obtain ⟨next, banned⟩ := banAll_returns kernel order hosts judged
  refine ⟨next, ?_⟩
  rw [onPiece, took]
  show (taken.judge kernel result >>= fun judged => banAll kernel order judged.1 judged.2) = .ok next
  rw [verdict_ok]
  exact banned

theorem dispatch_returns (geometry : Geometry t) {f : Flow} (custody : Custody sha1 t f) (balanced : Balanced f)
    {event : PeerEvent} {rest : List PeerEvent} (front : f.queue = event :: rest)
    (few : t.pieces.length + 7 < 2 ^ 32) (order : Bytes → List Nat) :
    ∃ next, f.session.dispatch sha1 kernel order event = .ok next := by
  cases event with
  | piece id block => exact onPiece_returns kernel geometry custody balanced front few order
  | request id req =>
    have typed := custody.typed (.request id req) (by rw [front]; exact List.mem_cons_self ..)
    exact onRequest_returns kernel geometry custody.sound id req typed
  | _ => exact ⟨_, rfl⟩

end Dispatch

/-- For an accepted torrent whose piece count leaves the bit arithmetic room, a session can be
constructed over any files, and in every state of every run the next event can be dispatched: no
exception ends `run`. -/
theorem run_never_throws (sha1 : Bytes → Bytes) (kernel : Kernel) (data : Bytes) (t : TorrentFile)
    (accepted : parseTorrent sha1 data = .ok t) (few : t.pieces.length + 7 < 2 ^ 32) :
    (∀ (peerId : Bytes) (listenSock : Option Nat) (downloadDir : Path) (initialPeers : List Peer) (env : Env)
        (store : Store), peerId.length = 20 →
      ∃ s, create sha1 kernel t peerId listenSock downloadDir initialPeers env store = .ok s) ∧
    ∀ sys, Reached sha1 kernel t sys → ∀ event rest, sys.phase = .dispatching (event :: rest) →
      ∀ order, ∃ next, step sha1 kernel sys (.dispatch order) = some next ∧ next.phase = .dispatching rest := by
  have geometry := accepted_geometry sha1 data t accepted
  refine ⟨?_, ?_⟩
  · intro peerId listenSock downloadDir initialPeers env store named
    obtain ⟨s, -, made, -⟩ := create_returns sha1 kernel listenSock downloadDir initialPeers env store
      geometry few named
    exact ⟨s, made⟩
  · intro sys reached event rest here order
    have front : sys.flow.queue = event :: rest := by rw [Sys.flow, here]; rfl
    obtain ⟨session, dispatched⟩ := dispatch_returns kernel geometry (reached_custody reached)
      (reached_balanced reached) front few order
    have same : sys.session.dispatch sha1 kernel order event = .ok session := dispatched
    simp only [step, here, same]
    exact ⟨_, rfl, rfl⟩

/-- The only block has come in and is about to be judged. -/
theorem run_never_throws_last_block :
    ∃ sys block next, Reached spotDigest wholeKernel oneByteWanted sys ∧
      sys.phase = .dispatching [.piece 0 block] ∧
      step spotDigest wholeKernel sys (.dispatch (fun _ => [])) = some next ∧ next.phase = .dispatching [] := by
  have shown : (rehearse spotDigest oneByteWanted (welcome oneByteWanted (ascii "h") ++
      [arrives 1 (ascii "h") (Message.bytes (.piece 0 0 [1]))])).map Sys.phase =
        some (.dispatching [.piece 0 ⟨0, 0, [1]⟩]) := by
    decide +kernel
  obtain ⟨sys, ran, here⟩ := Option.map_eq_some_iff.mp shown
  have reached := rehearse_reached ⟨_, oneByteWanted_accepted⟩ ran
  obtain ⟨next, moves, after⟩ := (run_never_throws spotDigest wholeKernel oneByteInfo oneByteWanted
    oneByteWanted_accepted (by decide)).2 sys reached _ _ here (fun _ => [])
  exact ⟨sys, _, next, reached, here, moves, after⟩

end TorrentPeer.Session
