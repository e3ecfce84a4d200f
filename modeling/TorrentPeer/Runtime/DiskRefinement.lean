import TorrentPeer.Runtime.DiskLayout
import TorrentPeer.Metainfo.SingleFile

/-! `DiskManager` refines one byte array of the torrent's total length, as long as the
piece count survives its conversion to `uint32_t`. -/

namespace TorrentPeer.DiskManager

open Splice Torrent Outcome

section Calls

variable {disk : DiskManager} {t : TorrentFile} (kernel : Kernel) (mounted : Mounted disk t)
  (geometry : Geometry t) (store : Store)

include mounted in
theorem index_inside (index : Nat) (counted : index < disk.pieceCount) : index < t.pieces.length := by
  rw [mounted.pieceCount] at counted
  exact Nat.lt_of_lt_of_le counted (Nat.mod_le _ _)

include mounted geometry in
theorem pieceStart_exact (index : Nat) (inside : index < t.pieces.length) :
    mulU64 index disk.pieceLength = index * t.pieceLength.toNat := by
  have start := geometry.start_inside index inside
  have limit := geometry.total_high
  rw [kLimit] at limit
  rw [mounted.pieceLength, mulU64, Nat.mod_eq_of_lt (by omega)]

theorem writePiece_index (piece : CompletedPiece) (past : disk.pieceCount ≤ piece.index) :
    writePiece kernel disk piece store =
      .error (.outOfRange (ascii "piece index out of range")) store := by
  rw [writePiece, writePieceBy, if_pos past]
  rfl

theorem readBlock_index (pieceIndex offset length : Nat) (past : disk.pieceCount ≤ pieceIndex) :
    readBlock kernel disk pieceIndex offset length store =
      .error (.outOfRange (ascii "piece index out of range")) store := by
  rw [readBlock, if_pos past]

include mounted geometry

theorem writePiece_past (piece : CompletedPiece) (counted : piece.index < disk.pieceCount)
    (past : t.totalLength < piece.index * t.pieceLength.toNat + piece.data.length)
    (vector : piece.data.length < 2 ^ 63) :
    writePiece kernel disk piece store =
      .error (.outOfRange (ascii "range extends past the end of the torrent")) store := by
  have inside := index_inside mounted piece.index counted
  have start := geometry.start_inside piece.index inside
  have limit := geometry.total_high
  rw [kLimit] at limit
  rw [writePiece, writePieceBy, if_neg (by omega), pieceStart_exact mounted geometry piece.index inside]
  exact forEachSlice_past disk t.totalLength _ _ _ mounted.totalLength (by omega) past (by omega) store

omit geometry in
theorem readBlock_past (pieceIndex offset length : Nat) (counted : pieceIndex < disk.pieceCount)
    (past : pieceSize t pieceIndex < offset + length) (offset_u32 : offset < 2 ^ 32)
    (length_u32 : length < 2 ^ 32) :
    readBlock kernel disk pieceIndex offset length store =
      .error (.outOfRange (ascii "read_block range extends past the piece")) store := by
  have wide : addU64 offset length = offset + length := by
    rw [addU64, Nat.mod_eq_of_lt (by omega)]
  rw [readBlock, if_neg (by omega), wide, mounted.torrent, if_pos past]

variable (array : Bytes) (holds : Holds disk.files store array) (width : array.length = t.totalLength)

include holds width

theorem writePiece_ok (piece : CompletedPiece) (counted : piece.index < disk.pieceCount)
    (bound : piece.index * t.pieceLength.toNat + piece.data.length ≤ t.totalLength) :
    ∃ next, writePiece kernel disk piece store = .ok () next ∧
      Holds disk.files next (splice array (piece.index * t.pieceLength.toNat) piece.data) ∧
      InBounds disk.files store next := by
  rw [writePiece, writePieceBy, if_neg (by omega),
    pieceStart_exact mounted geometry piece.index (index_inside mounted piece.index counted)]
  exact writeRange_ok kernel mounted geometry store array holds width _ piece.data bound

theorem readBlock_ok (pieceIndex offset length : Nat) (counted : pieceIndex < disk.pieceCount)
    (bound : offset + length ≤ pieceSize t pieceIndex) :
    ∃ next, readBlock kernel disk pieceIndex offset length store =
        .ok (slice array (pieceIndex * t.pieceLength.toNat + offset) length) next ∧
      next.content = store.content ∧ InBounds disk.files store next := by
  have inside := index_inside mounted pieceIndex counted
  have last := geometry.piece_end pieceIndex inside
  have limit := geometry.total_high
  rw [kLimit] at limit
  have wide : addU64 offset length = offset + length := by
    rw [addU64, Nat.mod_eq_of_lt (by omega)]
  have position : addU64 (mulU64 pieceIndex disk.pieceLength) offset =
      pieceIndex * t.pieceLength.toNat + offset := by
    rw [pieceStart_exact mounted geometry pieceIndex inside, addU64, Nat.mod_eq_of_lt (by omega)]
  obtain ⟨next, performed, same, touched⟩ := readRange_ok kernel mounted geometry store array holds
    width (pieceIndex * t.pieceLength.toNat + offset) length (by omega)
  refine ⟨next, ?_, same, touched⟩
  rw [readBlock, if_neg (by omega), wide, mounted.torrent, if_neg (by omega), position]
  simp only [performed]

end Calls

inductive Call where
  | write (piece : CompletedPiece)
  | read (pieceIndex offset length : Nat)

def Call.Typed : Call → Prop
  | .write piece => piece.index < 2 ^ 32 ∧ piece.data.length < 2 ^ 63
  | .read pieceIndex offset length => pieceIndex < 2 ^ 32 ∧ offset < 2 ^ 32 ∧ length < 2 ^ 32

def perform (kernel : Kernel) (disk : DiskManager) : Call → DiskM Store Bytes
  | .write piece => do
      writePiece kernel disk piece
      pure []
  | .read pieceIndex offset length => readBlock kernel disk pieceIndex offset length

def flat (t : TorrentFile) (array : Bytes) : Call → Option (Bytes × Bytes)
  | .write piece =>
    if piece.index < t.pieces.length ∧
        piece.index * t.pieceLength.toNat + piece.data.length ≤ t.totalLength then
      some ([], splice array (piece.index * t.pieceLength.toNat) piece.data)
    else none
  | .read pieceIndex offset length =>
    if pieceIndex < t.pieces.length ∧ offset + length ≤ pieceSize t pieceIndex then
      some (slice array (pieceIndex * t.pieceLength.toNat + offset) length, array)
    else none

/-- Call after call the answers agree, the files hold the array, and no transfer leaves
its file; a call the array rejects throws and leaves everything as it was. -/
def Simulates (kernel : Kernel) (disk : DiskManager) (t : TorrentFile) (files : List FileEntry) :
    List Call → Store → Bytes → Prop
  | [], _, _ => True
  | call :: calls, store, array =>
    match flat t array call with
    | some (answer, written) =>
      ∃ next, perform kernel disk call store = .ok answer next ∧ Holds files next written ∧
        InBounds files store next ∧ Simulates kernel disk t files calls next written
    | none =>
      (∃ what, perform kernel disk call store = .error (.outOfRange what) store) ∧
        Simulates kernel disk t files calls store array

/-- Opened on any initial files, the manager behaves as an array of `total_length` bytes. -/
def FlatArray (t : TorrentFile) : Prop :=
  ∀ (kernel : Kernel) (downloadDir : Path) (store : Store), ∃ disk opened array,
    create kernel t downloadDir store = .ok disk opened ∧ array.length = t.totalLength ∧
      Holds (layoutEntries t downloadDir) opened array ∧
      ∀ calls : List Call, (∀ call ∈ calls, call.Typed) →
        Simulates kernel disk t (layoutEntries t downloadDir) calls opened array

theorem InBounds.all {files : List FileEntry} {store next : Store}
    (inside : InBounds (files.filter (fun e => decide (0 < e.length))) store next) :
    InBounds files store next := by
  obtain ⟨extra, appended, each⟩ := inside
  refine ⟨extra, appended, ?_⟩
  intro access touching
  obtain ⟨f, member, within⟩ := each access touching
  exact ⟨f, (List.mem_filter.mp member).1, within⟩

theorem perform_flat (kernel : Kernel) {disk : DiskManager} {t : TorrentFile}
    (mounted : Mounted disk t) (geometry : Geometry t) (few : t.pieces.length < 2 ^ 32)
    (store : Store) (array : Bytes) (holds : Holds disk.files store array)
    (width : array.length = t.totalLength) (call : Call) (typed : call.Typed) :
    match flat t array call with
    | some (answer, written) =>
      ∃ next, perform kernel disk call store = .ok answer next ∧
        Holds disk.files next written ∧ InBounds disk.files store next ∧
        written.length = t.totalLength
    | none => ∃ what, perform kernel disk call store = .error (.outOfRange what) store := by
  have count : disk.pieceCount = t.pieces.length := by
    rw [mounted.pieceCount, Nat.mod_eq_of_lt few]
  cases call with
  | write piece =>
    by_cases accepted : piece.index < t.pieces.length ∧
        piece.index * t.pieceLength.toNat + piece.data.length ≤ t.totalLength
    · obtain ⟨next, performed, kept, touched⟩ := writePiece_ok kernel mounted geometry store array
        holds width piece (by rw [count]; exact accepted.1) accepted.2
      simp only [flat, if_pos accepted]
      refine ⟨next, ?_, kept, touched, ?_⟩
      · rw [perform, bind_run performed]
        rfl
      · rw [splice_length _ _ _ (by omega), width]
    · simp only [flat, if_neg accepted]
      by_cases counted : piece.index < disk.pieceCount
      · have past : t.totalLength < piece.index * t.pieceLength.toNat + piece.data.length := by
          by_contra inside
          exact accepted ⟨by omega, by omega⟩
        have thrown := writePiece_past kernel mounted geometry store piece counted past typed.2
        exact ⟨_, bind_throw thrown⟩
      · have thrown := writePiece_index kernel store piece (Nat.le_of_not_lt counted)
        exact ⟨_, bind_throw thrown⟩
  | read pieceIndex offset length =>
    by_cases accepted : pieceIndex < t.pieces.length ∧ offset + length ≤ pieceSize t pieceIndex
    · obtain ⟨next, performed, same, touched⟩ := readBlock_ok kernel mounted geometry store array
        holds width pieceIndex offset length (by rw [count]; exact accepted.1) accepted.2
      simp only [flat, if_pos accepted]
      refine ⟨next, performed, ?_, touched, width⟩
      intro f member
      rw [same]
      exact holds f member
    · simp only [flat, if_neg accepted]
      by_cases counted : pieceIndex < disk.pieceCount
      · have past : pieceSize t pieceIndex < offset + length := by
          by_contra inside
          exact accepted ⟨by omega, by omega⟩
        exact ⟨_, readBlock_past kernel mounted store pieceIndex offset length counted past
          typed.2.1 typed.2.2⟩
      · exact ⟨_, readBlock_index kernel store pieceIndex offset length (Nat.le_of_not_lt counted)⟩

/-- Every run of calls, by induction with the array as the abstract state. -/
theorem run_flat (kernel : Kernel) {disk : DiskManager} {t : TorrentFile} {files : List FileEntry}
    (mounted : Mounted disk t) (geometry : Geometry t) (few : t.pieces.length < 2 ^ 32)
    (opened : disk.files = files.filter (fun e => decide (0 < e.length)))
    (calls : List Call) (typed : ∀ call ∈ calls, call.Typed) (store : Store) (array : Bytes)
    (holds : Holds disk.files store array) (width : array.length = t.totalLength) :
    Simulates kernel disk t files calls store array := by
  induction calls generalizing store array with
  | nil => trivial
  | cons call calls ih =>
    have step := perform_flat kernel mounted geometry few store array holds width call
      (typed call (by simp))
    have later := ih (fun other member => typed other (by simp [member]))
    unfold Simulates
    cases outcome : flat t array call with
    | none =>
      rw [outcome] at step
      exact ⟨step, later store array holds width⟩
    | some result =>
      obtain ⟨answer, written⟩ := result
      rw [outcome] at step
      obtain ⟨next, performed, kept, touched, size⟩ := step
      refine ⟨next, performed, ?_, ?_, later next written kept size⟩
      · rw [opened] at kept
        exact (holds_nonempty files next written).mp kept
      · rw [opened] at touched
        exact touched.all

theorem wrapped_count {t : TorrentFile} (geometry : Geometry t) (many : 2 ^ 32 ≤ t.pieces.length) :
    ¬ FlatArray t := by
  intro claimed
  obtain ⟨disk, opened, array, created, width, -, simulated⟩ :=
    claimed ⟨fun _ => 0, fun _ => true⟩ [] ⟨fun _ => [], 0, []⟩
  obtain ⟨disk', opened', -, created', mounted, -, -, -⟩ :=
    create_ok ⟨fun _ => 0, fun _ => true⟩ geometry [] ⟨fun _ => [], 0, []⟩
  rw [created] at created'
  cases created'
  -- the first index past the wrapped count
  obtain ⟨index, wrapped⟩ : ∃ index, index = t.pieces.length % 2 ^ 32 := ⟨_, rfl⟩
  have u32 : index < 2 ^ 32 := by
    rw [wrapped]
    exact Nat.mod_lt _ (by decide)
  have inside : index < t.pieces.length := by omega
  have last := geometry.piece_end index inside
  have limit := geometry.total_high
  rw [kLimit] at limit
  have run := simulated [.write ⟨index, List.replicate (pieceSize t index) 0⟩] (by
    intro call member
    rw [List.mem_singleton] at member
    subst member
    refine ⟨u32, ?_⟩
    rw [List.length_replicate]
    omega)
  have accepted : index < t.pieces.length ∧
      index * t.pieceLength.toNat + (List.replicate (pieceSize t index) (0 : UInt8)).length ≤
        t.totalLength := by
    rw [List.length_replicate]
    exact ⟨inside, last⟩
  simp only [Simulates, flat, if_pos accepted] at run
  obtain ⟨next, performed, -⟩ := run
  have refused := writePiece_index ⟨fun _ => 0, fun _ => true⟩ opened
    ⟨index, List.replicate (pieceSize t index) 0⟩ (by rw [mounted.pieceCount, wrapped])
  rw [perform, bind_throw refused] at performed
  cases performed

theorem disk_flat_array_iff (sha1 : Bytes → Bytes) (data : Bytes) (t : TorrentFile)
    (accepted : parseTorrent sha1 data = .ok t) : FlatArray t ↔ t.pieces.length < 2 ^ 32 := by
  have geometry := accepted_geometry sha1 data t accepted
  constructor
  · intro refines
    by_contra many
    exact wrapped_count geometry (Nat.le_of_not_lt many) refines
  · intro few kernel downloadDir store
    obtain ⟨disk, opened, array, created, mounted, entries, width, holds⟩ :=
      create_ok kernel geometry downloadDir store
    refine ⟨disk, opened, array, created, width, ?_, ?_⟩
    · rw [entries] at holds
      exact (holds_nonempty _ opened array).mp holds
    · intro calls typed
      exact run_flat kernel mounted geometry few entries calls typed opened array holds width

def threeFiles : Bytes :=
  ascii "d4:infod5:filesld6:lengthi3e4:pathl1:xeed6:lengthi0e4:pathl1:yeed6:lengthi2e4:pathl1:zeee"
    ++ ascii "4:name1:d12:piece lengthi2e6:pieces60:" ++ List.replicate 60 0 ++ ascii "ee"

theorem disk_flat_array_three_files :
    ∃ t, parseTorrent (fun _ => []) threeFiles = .ok t ∧ t.pieces.length = 3 ∧ FlatArray t := by
  have three : (parseTorrent (fun _ => []) threeFiles).toOption.map (fun t => t.pieces.length) = some 3 := by
    decide +kernel
  obtain ⟨t, present, count⟩ := Option.map_eq_some_iff.mp three
  have accepted := toOption_ok present
  exact ⟨t, accepted, count, (disk_flat_array_iff _ _ t accepted).mpr (by omega)⟩

/-- One byte per piece and 2^32 pieces: `parse_torrent` accepts, the manager counts zero. -/
theorem disk_flat_array_wraps :
    ¬ ∀ (sha1 : Bytes → Bytes) (data : Bytes) (t : TorrentFile),
      parseTorrent sha1 data = .ok t → FlatArray t := by
  intro claimed
  obtain ⟨data, t, accepted, count⟩ := wide_accepted (fun _ => [])
  have geometry := accepted_geometry _ _ _ accepted
  exact wrapped_count geometry (Nat.le_of_eq count.symm) (claimed _ _ _ accepted)

end TorrentPeer.DiskManager
