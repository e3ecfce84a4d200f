import TorrentPeer.Runtime.Accounting
import TorrentPeer.Runtime.Construction

/-! Starting again over what an earlier session left in the files, also if it was killed while it
stored a piece. -/

namespace TorrentPeer.DiskManager

open Splice Torrent Outcome

/-- `pwrite` in a process that is killed once it has made so many more calls: from then on nothing
changes, whatever the rest of the program would have done. -/
def pwriteUntil (kernel : Kernel) (path : Path) (buf : Bytes) (offset : Nat) : DiskM (Store × Nat) Nat :=
  fun state =>
    if state.2 = 0 then .ok buf.length state
    else
      match pwrite kernel path buf offset state.1 with
      | .ok n next => .ok n (next, state.2 - 1)
      | .error problem next => .error problem (next, state.2 - 1)

def writePieceUntil (kernel : Kernel) (disk : DiskManager) (piece : CompletedPiece) : DiskM (Store × Nat) Unit :=
  writePieceBy (fun path buf offset => pwriteLoop (pwriteUntil kernel path) buf.length buf offset) disk piece

section Killed

variable (kernel : Kernel)

/-- The killed loop has written a first part of the buffer, and all of it unless it was killed; no call
was spent on nothing. -/
theorem pwriteUntil_ok (path : Path) (buf : Bytes) (offset : Nat) (store : Store) (left : Nat)
    (inside : offset + buf.length ≤ (store.content path).length) :
    ∃ next m, pwriteLoop (pwriteUntil kernel path) buf.length buf offset (store, left) = .ok () next ∧
      m ≤ buf.length ∧
      next.1.content = Function.update store.content path (splice (store.content path) offset (buf.take m)) ∧
      (m < buf.length → next.2 = 0) ∧ (left = 0 → m = 0) ∧ left ≤ next.2 + m := by
  obtain ⟨next, performed, m, part, written, stopped, dead, spent⟩ := pwriteLoop_rule
    (fun done state => ∃ m, m ≤ done ∧
      state.1.content = Function.update store.content path (splice (store.content path) offset (buf.take m)) ∧
      (m < done → state.2 = 0) ∧ (left = 0 → m = 0 ∧ state.2 = 0) ∧ left ≤ state.2 + m)
    (pwriteUntil kernel path) buf offset (store, left)
    (by
      rintro done ⟨state, budget⟩ ⟨m, part, written, stopped, dead, spent⟩ more
      dsimp only at written stopped dead spent
      by_cases killed : budget = 0
      · refine ⟨(buf.drop done).length, (state, budget), if_pos killed, ?_, ?_, m, by omega, written,
          fun _ => killed, dead, spent⟩
        · rw [List.length_drop]
          omega
        · rw [List.length_drop]
          omega
      · have all : m = done := by omega
        subst all
        obtain ⟨n, next, performed, moved, fits, content, -⟩ :=
          pwrite_next kernel path buf offset m store state inside more written
        refine ⟨n, (next, budget - 1), ?_, moved, fits, m + n, Nat.le_refl _, content,
          fun less => absurd less (Nat.lt_irrefl _), fun none_left => absurd (dead none_left).2 killed, ?_⟩
        · simp only [pwriteUntil, if_neg killed, performed]
        · dsimp only
          omega)
    ⟨0, Nat.le_refl _, by rw [List.take_zero, splice_nil, Function.update_eq_self],
      fun less => absurd less (Nat.lt_irrefl 0), fun none_left => ⟨rfl, none_left⟩, Nat.le_refl _⟩
  exact ⟨next, m, performed, part, written, stopped, fun none_left => (dead none_left).1, spent⟩

variable {disk : DiskManager} {t : TorrentFile} (mounted : Mounted disk t) (geometry : Geometry t)
  (store : Store) (array : Bytes) (holds : Holds disk.files store array) (width : array.length = t.totalLength)

include mounted geometry holds width

/-- Whenever it is killed, `write_piece` has put a first part of the piece in its place, and all of it
if there were calls enough for one byte each. -/
theorem writePieceUntil_ok (piece : CompletedPiece) (left : Nat) (counted : piece.index < disk.pieceCount)
    (bound : piece.index * t.pieceLength.toNat + piece.data.length ≤ t.totalLength) :
    ∃ next m, writePieceUntil kernel disk piece (store, left) = .ok () next ∧ m ≤ piece.data.length ∧
      Holds disk.files next.1 (splice array (piece.index * t.pieceLength.toNat) (piece.data.take m)) ∧
      (piece.data.length < left → m = piece.data.length) := by
  have limit := geometry.total_high
  rw [kLimit] at limit
  generalize base_eq : piece.index * t.pieceLength.toNat = base at bound
  obtain ⟨next, performed, m, part, kept, stopped, spent⟩ :=
    forEachSlice_rule disk t.totalLength base piece.data.length
    (fun path bufPos n fileOff => pwriteLoop (pwriteUntil kernel path) (slice piece.data bufPos n).length
      (slice piece.data bufPos n) fileOff)
    mounted.tiled mounted.totalLength (by omega) bound
    (fun done state => ∃ m, m ≤ done ∧ Holds disk.files state.1 (splice array base (piece.data.take m)) ∧
      (m < done → state.2 = 0) ∧ left ≤ state.2 + m) (store, left)
    (by
      rintro f member done ⟨state, budget⟩ ⟨m, part, before, stopped, spent⟩ more low high
      obtain ⟨n, count⟩ : ∃ n, n = min (piece.data.length - done) (f.offset + f.length - (base + done)) := ⟨_, rfl⟩
      rw [← count]
      dsimp only at before stopped spent
      have head : (piece.data.take m).length = m := by
        rw [List.length_take]
        omega
      have chunk : (slice piece.data done n).length = n := slice_length _ _ _ (by omega)
      have size : (splice array base (piece.data.take m)).length = t.totalLength := by
        rw [splice_length _ _ _ (by omega), width]
      have backed := before.backed mounted.tiled size f member
      obtain ⟨next, more_written, performed, fits, written, halted, dead, calls⟩ := pwriteUntil_ok kernel f.path
        (slice piece.data done n) (base + done - f.offset) state budget (by omega)
      refine ⟨next, performed, ?_⟩
      by_cases whole : m = done
      · subst whole
        have length : ((slice piece.data m n).take more_written).length = more_written := by
          rw [List.length_take]
          omega
        have placed := before.write mounted.tiled mounted.paths size f member (base + m)
          ((slice piece.data m n).take more_written) low (by omega) written
        have joined := splice_append array base (piece.data.take m) ((slice piece.data m n).take more_written)
          (by omega)
        have prefix_eq : piece.data.take m ++ (slice piece.data m n).take more_written =
            piece.data.take (m + more_written) := by
          rw [slice, List.take_take, Nat.min_eq_left (by omega), ← List.take_add]
        rw [head, prefix_eq] at joined
        refine ⟨m + more_written, by omega, ?_, fun less => halted (by omega), by omega⟩
        rw [← joined]
        exact placed
      · -- it was killed in an earlier slice, and nothing has changed since
        have ended : budget = 0 := stopped (by omega)
        have none_written := dead ended
        subst none_written
        rw [List.take_zero, splice_nil, Function.update_eq_self] at written
        refine ⟨m, by omega, ?_, fun _ => halted (by omega), by omega⟩
        intro g inside
        rw [written]
        exact before g inside)
    ⟨0, Nat.le_refl 0, by rw [List.take_zero, splice_nil]; exact holds, fun less => absurd less (Nat.lt_irrefl 0),
      Nat.le_refl left⟩
  refine ⟨next, m, ?_, part, kept, by omega⟩
  rw [writePieceUntil, writePieceBy, if_neg (by omega),
    pieceStart_exact mounted geometry piece.index (index_inside mounted piece.index counted), base_eq]
  exact performed

end Killed

section Reopening

theorem slice_extend (content : Bytes) (length : Nat) (enough : length ≤ content.length) (kernel : Kernel)
    (path : Path) :
    slice (reserve kernel path length content) 0 length = slice content 0 length := by
  unfold reserve
  split
  · rw [extend_enough content length enough]
  · rw [ftruncate, extend_enough content length enough, slice, slice, List.drop_zero, List.drop_zero, List.take_take,
      Nat.min_self]

theorem openFiles_keeps (kernel : Kernel) (pairs : List (Path × Nat)) (cursor : Nat) (store : Store)
    (distinct : (pairs.map Prod.fst).Nodup) :
    (∀ path ∉ pairs.map Prod.fst, (openFiles kernel pairs cursor store).2.2.content path = store.content path) ∧
    ∀ pair ∈ pairs, pair.2 ≤ (store.content pair.1).length →
      slice ((openFiles kernel pairs cursor store).2.2.content pair.1) 0 pair.2 =
        slice (store.content pair.1) 0 pair.2 := by
  induction pairs generalizing cursor store with
  | nil => exact ⟨fun _ _ => rfl, fun pair member => absurd member List.not_mem_nil⟩
  | cons head tail ih =>
    obtain ⟨path, length⟩ := head
    rw [List.map_cons, List.nodup_cons] at distinct
    obtain ⟨others, kept⟩ := ih (addU64 cursor length) { store with
      content := Function.update store.content path (reserve kernel path length (store.content path)) } distinct.2
    refine ⟨?_, ?_⟩
    · intro other outside
      rw [List.map_cons, List.mem_cons, not_or] at outside
      exact (others other outside.2).trans (Function.update_of_ne outside.1 _ _)
    · intro pair member enough
      rcases List.mem_cons.mp member with rfl | later
      · have same := others path distinct.1
        dsimp only at same enough
        rw [Function.update_self] at same
        exact (congrArg (fun content => slice content 0 length) same).trans
          (slice_extend _ _ enough kernel path)
      · have different : pair.1 ≠ path := by
          intro equal
          exact distinct.1 (List.mem_map.mpr ⟨pair, later, equal⟩)
        have same := kept pair later
        dsimp only at same
        rw [Function.update_of_ne different] at same
        exact same enough

theorem entriesFrom_pair (pairs : List (Path × Nat)) (cursor : Nat) (f : FileEntry)
    (member : f ∈ entriesFrom pairs cursor) : (f.path, f.length) ∈ pairs := by
  induction pairs generalizing cursor with
  | nil => cases member
  | cons head tail ih =>
    rcases List.mem_cons.mp member with rfl | later
    · exact List.mem_cons_self ..
    · exact List.mem_cons_of_mem _ (ih _ later)

theorem create_opened {kernel : Kernel} {t : TorrentFile} {downloadDir : Path} {store opened : Store}
    {disk : DiskManager} (geometry : Geometry t) (created : create kernel t downloadDir store = .ok disk opened) :
    opened = (openFiles kernel (layoutPairs t downloadDir) 0 store).2.2 ∧
      disk.files = (openFiles kernel (layoutPairs t downloadDir) 0 store).1 := by
  unfold create at created
  dsimp only at created
  split at created
  · cases created
  · rw [layout_ok geometry] at created
    dsimp only at created
    split at created
    · cases created
    · cases created
      exact ⟨rfl, rfl⟩

end Reopening

end TorrentPeer.DiskManager

namespace TorrentPeer.Session

open Splice Torrent DiskManager PieceManager Transition

/-- What a process that is killed leaves in the files: what they held between two events, or, if it
was storing a piece that had passed, that with some calls of `pwrite` made. -/
inductive Left (sha1 : Bytes → Bytes) (kernel : Kernel) (sys : Sys) : Store → Prop
  | between : Left sha1 kernel sys sys.session.store
  | storing (id : Nat) (block : Block) (rest : List PeerEvent) (result : BlockResult) (pieces : PieceManager)
      (calls : Nat) (next : Store × Nat) (here : sys.phase = .dispatching (.piece id block :: rest))
      (filed : sys.session.pieces.onBlock sha1 block = .ok (result, pieces))
      (passed : result.status = .pieceVerified)
      (killed : sys.session.disk.writePieceUntil kernel result.piece (sys.session.store, calls) = .ok () next) :
      Left sha1 kernel sys next.1

section Files

variable {sha1 : Bytes → Bytes} {kernel : Kernel} {t : TorrentFile}

theorem reopened {downloadDir : Path} {store opened : Store} {disk : DiskManager} (geometry : Geometry t)
    (created : DiskManager.create kernel t downloadDir store = .ok disk opened)
    (backed : ∀ f ∈ disk.files, f.length ≤ (store.content f.path).length) :
    onDisk disk opened = onDisk disk store := by
  obtain ⟨other, _, _, again, -, files, -, -⟩ := create_ok kernel geometry downloadDir store
  rw [created] at again
  cases again
  have distinct := layoutPairs_distinct geometry downloadDir
  obtain ⟨-, kept⟩ := openFiles_keeps kernel (layoutPairs t downloadDir) 0 store distinct
  rw [(create_opened geometry created).1, onDisk, onDisk]
  apply List.flatMap_congr
  intro f member
  have entry := entriesFrom_pair _ _ f (List.mem_of_mem_filter (files ▸ member))
  exact kept _ entry (backed f member)

theorem run_disk (geometry : Geometry t) {first sys : Sys} {inputs : List Input} (books : Books sha1 t first.flow)
    (ran : run (step sha1 kernel) first inputs = some sys) : sys.session.disk = first.session.disk := by
  have both := run_keeps (fun f => Books sha1 t f ∧ f.session.disk = first.session.disk) ?_ ?_ ⟨books, rfl⟩ ran
  · exact both.2
  · rintro f next ⟨books, same⟩ move
    refine ⟨books.quiet geometry move, ?_⟩
    rw [← same]
    cases move with
    | join id rest front => simp only [onJoined, greet]
    | serve id req rest session front served =>
      have typed := books.custody.typed (.request id req) (by rw [front]; exact List.mem_cons_self ..)
      cases serve_cases geometry books.custody.sound id req session typed served with
      | ignored read kept => rfl
      | sent read kept held space inside count => rfl
    | file id block rest result taken judged hosts front idle took verdict =>
      cases judge_cases sha1 kernel f.session taken judged id block result hosts took verdict <;> rfl
    | _ => rfl
  · rintro f next ⟨books, same⟩ ask
    refine ⟨books.ask geometry ask, ?_⟩
    rw [← same]
    cases ask <;> rfl

theorem create_completed {peerId : Bytes} {listenSock : Option Nat} {downloadDir : Path} {initialPeers : List Peer}
    {env : Env} {store : Store} {s : Session}
    (created : create sha1 kernel t peerId listenSock downloadDir initialPeers env store = .ok s) :
    s.completed = s.pieces.isComplete := by
  unfold create at created
  split at created
  · cases created
  · obtain ⟨peers, -, onward⟩ := bind_ok created
    obtain ⟨⟨pieces, read⟩, -, session⟩ := bind_ok onward
    rw [← Except.ok.inj session]

theorem create_files {peerId : Bytes} {listenSock : Option Nat} {downloadDir : Path} {initialPeers : List Peer}
    {env : Env} {store : Store} {s : Session} (geometry : Geometry t)
    (created : create sha1 kernel t peerId listenSock downloadDir initialPeers env store = .ok s) :
    s.disk.files = (layoutEntries t downloadDir).filter (fun e => decide (0 < e.length)) := by
  obtain ⟨disk, opened, _, made, -, files, -, -⟩ := create_ok kernel geometry downloadDir store
  unfold create at created
  rw [made] at created
  obtain ⟨peers, -, onward⟩ := bind_ok created
  obtain ⟨⟨pieces, read⟩, -, session⟩ := bind_ok onward
  rw [← Except.ok.inj session]
  exact files

theorem counted_more {pieces again : PieceManager} (geometry : Geometry t) (counted : Counted t pieces)
    (recounted : Counted t again) (resumed : ∀ i, pieces.have_.get i = true → again.have_.get i = true) :
    again.bytesLeft ≤ pieces.bytesLeft ∧ (pieces.isComplete = true → again.isComplete = true) := by
  have count : again.pieceCount = pieces.pieceCount := by
    rw [recounted.valid.pieceCount, counted.valid.pieceCount]
  have more : pieces.held ⊆ again.held := by
    intro i member
    obtain ⟨below, held⟩ := (mem_held _ _).mp member
    exact (mem_held _ _).mpr ⟨by rw [count]; exact below, resumed i held⟩
  constructor
  · have grown : pieces.held.sum (pieceSize t) ≤ again.held.sum (pieceSize t) := Finset.sum_le_sum_of_subset more
    have first_left := counted.left geometry
    have second_left := recounted.left geometry
    omega
  · intro complete
    have whole : pieces.haveCount = pieces.pieceCount := of_decide_eq_true complete
    have least : pieces.held.card ≤ again.held.card := Finset.card_le_card more
    have most : again.held.card ≤ again.pieceCount := by
      have all := Finset.card_filter_le (Finset.range again.pieceCount) (fun i => again.have_.get i = true)
      rw [Finset.card_range] at all
      exact all
    rw [held_card counted.valid] at least
    rw [held_card recounted.valid] at least most
    exact decide_eq_true (by omega)

/-- Whatever is left in the files, the pieces held are there. -/
theorem Left.intact (geometry : Geometry t) {sys : Sys} (books : Books sha1 t sys.flow) {store : Store}
    (left : Left sha1 kernel sys store) :
    ∃ array, array.length = t.totalLength ∧ Holds sys.session.disk.files store array ∧
      ∀ i, sys.session.pieces.have_.get i = true →
        pieceBytes t array i = pieceBytes t (onDisk sys.session.disk sys.session.store) i := by
  have sound : Sound sha1 t sys.session.pieces sys.session.disk sys.session.store := books.custody.sound
  cases left with
  | between => exact ⟨_, sound.width, sound.holds, fun _ _ => rfl⟩
  | storing id block rest result pieces calls next here filed passed killed =>
    have front : sys.flow.queue = .piece id block :: rest := by
      rw [Sys.flow, here]
      rfl
    obtain ⟨pp, fits, verdict⟩ := onBlock_accepts geometry sound.valid sha1 block result pieces
      (books.balanced.front id block rest front) filed
    have inside := sound.valid.inside block.pieceIndex fits.counted
    have last := geometry.piece_end block.pieceIndex inside
    obtain ⟨-, -, -, size⟩ := filedPiece_facts geometry sound.valid fits
    cases verdict with
    | incomplete short => cases passed
    | failed full wrong => cases passed
    | verified _ full right stored =>
      have index : block.pieceIndex < sys.session.disk.pieceCount := by
        rw [sound.mounted.pieceCount, ← sound.valid.pieceCount]
        exact fits.counted
      obtain ⟨after, m, performed, part, holds, -⟩ := writePieceUntil_ok kernel sound.mounted geometry
        sys.session.store _ sound.holds sound.width
        ⟨block.pieceIndex, (filedPiece pp block (block.offset / kBlockSize)).data⟩ calls index (by dsimp only; omega)
      rw [killed] at performed
      cases performed
      dsimp only at holds part
      have short : ((filedPiece pp block (block.offset / kBlockSize)).data.take m).length = m := by
        rw [List.length_take]
        omega
      refine ⟨_, ?_, holds, ?_⟩
      · rw [splice_length _ _ _ (by rw [short, sound.width]; omega), sound.width]
      · intro i held
        have there := sound.valid.inside i (sound.valid.bits ▸ Bitfield.get_inside _ i held)
        have different : i ≠ block.pieceIndex := by
          intro same
          rw [same, fits.wanted] at held
          cases held
        have apart := geometry.pieces_apart i block.pieceIndex there inside different
        rw [pieceBytes, slice_splice_disjoint _ _ _ _ _ (by rw [sound.width]; omega) (by rw [short]; omega)]
        rfl

end Files

/-- A session that is started again in the directory of an earlier one, whenever and however that one
ended, has every piece the earlier one had, and exactly the pieces whose bytes in the files pass. -/
theorem restart_resumes (sha1 : Bytes → Bytes) (kernel : Kernel) (data : Bytes) (t : TorrentFile)
    (accepted : parseTorrent sha1 data = .ok t) (few : t.pieces.length + 7 < 2 ^ 32)
    (peerId : Bytes) (listenSock : Option Nat) (downloadDir : Path) (initialPeers : List Peer) (env : Env)
    (before : Store) (s : Session)
    (created : create sha1 kernel t peerId listenSock downloadDir initialPeers env before = .ok s)
    (inputs : List Input) (sys : Sys) (ran : run (step sha1 kernel) ⟨s, .polling, [], []⟩ inputs = some sys)
    (left : Store) (ended : Left sha1 kernel sys left)
    (newKernel : Kernel) (newId : Bytes) (newSock : Option Nat) (newPeers : List Peer) (newEnv : Env)
    (named : newId.length = 20) :
    ∃ again, create sha1 newKernel t newId newSock downloadDir newPeers newEnv left = .ok again ∧
      (∀ i, sys.session.pieces.have_.get i = true → again.pieces.have_.get i = true) ∧
      (∀ i < t.pieces.length, again.pieces.have_.get i =
        (PieceManager.create t).verify sha1 i (pieceBytes t (onDisk sys.session.disk left) i)) ∧
      again.pieces.bytesLeft ≤ sys.session.pieces.bytesLeft ∧
      (sys.session.pieces.isComplete = true → again.completed = true) := by
  have geometry := accepted_geometry sha1 data t accepted
  have begins : Begins sha1 kernel t ⟨s, .polling, [], []⟩ := created_begins ⟨data, accepted⟩ created
  have reached : Reached sha1 kernel t sys := (Transition.Reachable.start _ begins).run ran
  have books := reached_books reached
  have sound : Sound sha1 t sys.session.pieces sys.session.disk sys.session.store := books.custody.sound
  obtain ⟨array, width, holds, kept⟩ := ended.intact geometry books
  obtain ⟨again, opened, made, mounted_by, content, exactly⟩ := create_returns sha1 newKernel newSock downloadDir
    newPeers newEnv left geometry few named
  have fresh := create_fresh geometry made
  have files : again.disk.files = sys.session.disk.files := by
    rw [run_disk geometry (begins_books begins) ran, create_files geometry made, create_files geometry created]
  have backed : ∀ f ∈ again.disk.files, f.length ≤ (left.content f.path).length := by
    rw [files]
    exact holds.backed sound.mounted.tiled width
  have bytes : onDisk again.disk again.store = onDisk sys.session.disk left := by
    have reread : onDisk again.disk again.store = onDisk again.disk opened := by rw [onDisk, onDisk, content]
    rw [reread, reopened geometry mounted_by backed, onDisk, onDisk, files]
  have left_array : onDisk sys.session.disk left = array := onDisk_eq sound.mounted holds width
  have torrent : again.pieces.torrent = (PieceManager.create t).torrent := fresh.sound.valid.torrent
  have resumed : ∀ i, sys.session.pieces.have_.get i = true → again.pieces.have_.get i = true := by
    intro i held
    have inside := sound.valid.inside i (sound.valid.bits ▸ Bitfield.get_inside _ i held)
    have passed := sound.verified i held
    rw [exactly i, decide_eq_true inside, Bool.true_and, bytes, left_array, kept i held,
      verify_congr sha1 (fresh.sound.valid.torrent.trans sound.valid.torrent.symm)]
    exact passed
  have counted := run_counted geometry (begins_books begins) (begins_counted begins) ran
  have recounted : Counted t again.pieces := begins_counted (created_begins ⟨data, accepted⟩ made)
  obtain ⟨less, done⟩ := counted_more geometry counted recounted resumed
  refine ⟨again, made, resumed, ?_, less, ?_⟩
  · intro i inside
    rw [exactly i, decide_eq_true inside, Bool.true_and, bytes, verify_congr sha1 torrent]
  · intro complete
    rw [create_completed made]
    exact done complete

section Example

def pairInfo : Bytes :=
  ascii "d4:infod6:lengthi4e4:name1:a12:piece lengthi2e6:pieces40:" ++ List.replicate 40 0 ++ ascii "ee"

def pairDigest : Bytes → Bytes := fun data =>
  if data = [1, 1] then List.replicate 20 0 else List.replicate 20 1

def twoPairs : TorrentFile where
  name := ascii "a"
  pieceLength := 2
  pieces := List.replicate 2 (List.replicate 20 0)
  infoHash := List.replicate 20 1
  length := some 4
  totalLength := 4

theorem twoPairs_accepted : parseTorrent pairDigest pairInfo = .ok twoPairs := by decide +kernel

/-- Every call transfers one byte. -/
def byteKernel : Kernel := ⟨fun _ => 0, fun _ => true⟩

/-- The first piece is stored, and the second one has come. -/
def fetching : List Input :=
  welcome twoPairs (ascii "h") ++ arrives 1 (ascii "h") (Wire.Message.bytes (.have_ 1)) :: roundEnd ++
    [arrives 1 (ascii "h") (Wire.Message.bytes (.piece 0 0 [1, 1])), .dispatch (fun _ => [])] ++ roundEnd ++
    [arrives 1 (ascii "h") (Wire.Message.bytes (.piece 1 0 [1, 1]))]

def survives (disk : DiskManager) (store : Store) (calls : Nat) : Option Bytes :=
  match disk.writePieceUntil byteKernel ⟨1, [1, 1]⟩ (store, calls) with
  | .ok _ next => some (onDisk disk next.1)
  | .error _ _ => none

end Example

/-- Killed between the two bytes of the second piece: the first one is taken up again, and the second
one is not taken for stored. -/
theorem restart_resumes_killed :
    ∃ sys next again, Reached pairDigest byteKernel twoPairs sys ∧ sys.session.pieces.have_.get 0 = true ∧
      sys.session.disk.writePieceUntil byteKernel ⟨1, [1, 1]⟩ (sys.session.store, 1) = .ok () next ∧
      onDisk sys.session.disk next.1 = [1, 1, 1, 0] ∧
      create pairDigest wholeKernel twoPairs (List.replicate 20 9) none [] [] quietEnv next.1 = .ok again ∧
      again.pieces.have_.get 0 = true ∧ again.pieces.have_.get 1 = false := by
  have shown : (create pairDigest byteKernel twoPairs (List.replicate 20 7) (some 3) [] [] quietEnv
      ⟨fun _ => [], 0, []⟩).toOption.bind (fun s =>
        (run (step pairDigest byteKernel) ⟨s, .polling, [], []⟩ fetching).map (fun sys =>
          ((sys.phase, (sys.session.pieces.onBlock pairDigest ⟨1, 0, [1, 1]⟩).toOption.map Prod.fst),
            sys.session.pieces.have_.get 0, sys.session.disk.pieceCount,
            survives sys.session.disk sys.session.store 1))) =
      some ((.dispatching [.piece 0 ⟨1, 0, [1, 1]⟩], some ⟨.pieceVerified, ⟨1, [1, 1]⟩⟩), true, 2,
        some [1, 1, 1, 0]) := by
    decide +kernel
  obtain ⟨s, made, shown⟩ := Option.bind_eq_some_iff.mp shown
  have created := toOption_ok made
  obtain ⟨sys, ran, seen⟩ := Option.map_eq_some_iff.mp shown
  simp only [Prod.mk.injEq] at seen
  obtain ⟨⟨here, judged⟩, held, count, bytes⟩ := seen
  obtain ⟨⟨result, pieces⟩, verdict, passed⟩ := Option.map_eq_some_iff.mp judged
  have filed := toOption_ok verdict
  dsimp only at passed
  subst passed
  have begins := created_begins ⟨_, twoPairs_accepted⟩ created
  have reached : Reached pairDigest byteKernel twoPairs sys := (Transition.Reachable.start _ begins).run ran
  have sound : Sound pairDigest twoPairs sys.session.pieces sys.session.disk sys.session.store :=
    (reached_books reached).custody.sound
  obtain ⟨next, -, killed, -⟩ := writePieceUntil_ok byteKernel sound.mounted (begins_geometry begins)
    sys.session.store _ sound.holds sound.width ⟨1, [1, 1]⟩ 1 (by rw [count]; decide) (by decide +kernel)
  have ended : Left pairDigest byteKernel sys next.1 := .storing 0 _ [] _ pieces 1 next here filed rfl killed
  obtain ⟨again, made, resumed, exactly, -⟩ := restart_resumes pairDigest byteKernel pairInfo twoPairs
    twoPairs_accepted (by decide) _ _ _ _ _ _ s created _ sys ran next.1 ended wholeKernel (List.replicate 20 9)
    none [] quietEnv (by decide)
  simp only [survives, killed, Option.some.injEq] at bytes
  refine ⟨sys, next, again, reached, held, killed, bytes, made, resumed 0 held, ?_⟩
  rw [exactly 1 (by decide), bytes]
  decide +kernel

end TorrentPeer.Session
