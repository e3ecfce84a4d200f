import TorrentPeer.Runtime.DiskAccess

/-! `DiskManager` over the flat array it stands for: every file holds its slice. -/

namespace TorrentPeer.DiskManager

open Splice Torrent

def Holds (files : List FileEntry) (store : Store) (array : Bytes) : Prop :=
  ∀ f ∈ files, slice (store.content f.path) 0 f.length = slice array f.offset f.length

def InBounds (files : List FileEntry) (store next : Store) : Prop :=
  ∃ extra, next.accesses = store.accesses ++ extra ∧
    ∀ access ∈ extra, ∃ f ∈ files, access.path = f.path ∧ access.offset + access.count ≤ f.length

theorem InBounds.refl (files : List FileEntry) (store : Store) : InBounds files store store :=
  ⟨[], by simp, by simp⟩

theorem InBounds.trans {files : List FileEntry} {store middle next : Store}
    (first : InBounds files store middle) (second : InBounds files middle next) :
    InBounds files store next := by
  obtain ⟨before, left, each_before⟩ := first
  obtain ⟨after, right, each_after⟩ := second
  refine ⟨before ++ after, by rw [right, left, List.append_assoc], ?_⟩
  intro access member
  rcases List.mem_append.mp member with early | late
  · exact each_before access early
  · exact each_after access late

theorem Within.inBounds {files : List FileEntry} {f : FileEntry} {low high : Nat}
    {store next : Store} (member : f ∈ files) (touched : Within f.path low high store next)
    (inside : high ≤ f.length) : InBounds files store next := by
  obtain ⟨extra, appended, each⟩ := touched
  refine ⟨extra, appended, ?_⟩
  intro access touching
  obtain ⟨path, _, last⟩ := each access touching
  exact ⟨f, member, path, by omega⟩

/-- What the constructor leaves behind: `files_` and the numbers copied from the torrent. -/
structure Mounted (disk : DiskManager) (t : TorrentFile) : Prop where
  torrent : disk.torrent = t
  pieceLength : disk.pieceLength = t.pieceLength.toNat
  totalLength : disk.totalLength = t.totalLength
  pieceCount : disk.pieceCount = t.pieces.length % 2 ^ 32
  tiled : Tiled disk.files 0 t.totalLength
  paths : (disk.files.map FileEntry.path).Nodup

theorem Holds.backed {files : List FileEntry} {store : Store} {array : Bytes} {total : Nat}
    (holds : Holds files store array) (tiled : Tiled files 0 total) (width : array.length = total)
    (f : FileEntry) (member : f ∈ files) : f.length ≤ (store.content f.path).length := by
  have bounds := (Tiled.bounds files 0 total tiled).2 f member
  have sizes := congrArg List.length (holds f member)
  rw [slice_length array _ _ (by omega)] at sizes
  simp only [slice, List.length_take, List.length_drop] at sizes
  omega

theorem path_injective {files : List FileEntry} (distinct : (files.map FileEntry.path).Nodup)
    (f g : FileEntry) (left : f ∈ files) (right : g ∈ files) (same : f.path = g.path) : f = g :=
  List.inj_on_of_nodup_map distinct left right same

theorem Holds.write {files : List FileEntry} {store next : Store} {array : Bytes} {total : Nat}
    (holds : Holds files store array) (tiled : Tiled files 0 total)
    (distinct : (files.map FileEntry.path).Nodup) (width : array.length = total)
    (f : FileEntry) (member : f ∈ files) (position : Nat) (chunk : Bytes)
    (low : f.offset ≤ position) (high : position + chunk.length ≤ f.offset + f.length)
    (written : next.content = Function.update store.content f.path
      (splice (store.content f.path) (position - f.offset) chunk)) :
    Holds files next (splice array position chunk) := by
  have backed := holds.backed tiled width
  have bounds := (Tiled.bounds files 0 total tiled).2
  intro g inside
  by_cases same : g = f
  · subst same
    rw [written, Function.update_self,
      slice_splice_inside _ _ _ 0 g.length (Nat.zero_le _) (by omega)
        (by have enough := backed g inside; omega), Nat.sub_zero, holds g inside]
    exact (slice_splice_inside array position chunk g.offset g.length low high
      (by have bound := bounds g inside; omega)).symm
  · have other : g.path ≠ f.path := fun equal => same (path_injective distinct g f inside member equal)
    have bound := bounds f member
    have apart := Tiled.apart files 0 total tiled f g member inside (Ne.symm same)
    rw [written, Function.update_of_ne other, holds g inside,
      slice_splice_disjoint array position chunk g.offset g.length (by omega) (by omega)]

section Operations

variable {disk : DiskManager} {t : TorrentFile} (kernel : Kernel) (mounted : Mounted disk t)
  (geometry : Geometry t) (store : Store) (array : Bytes) (holds : Holds disk.files store array)
  (width : array.length = t.totalLength)

include mounted geometry holds width

theorem writeRange_ok (base : Nat) (data : Bytes) (bound : base + data.length ≤ t.totalLength) :
    ∃ next, disk.forEachSlice base data.length
        (fun path bufPos n fileOff => pwriteAll kernel path (slice data bufPos n) fileOff) store =
          .ok () next ∧
      Holds disk.files next (splice array base data) ∧ InBounds disk.files store next := by
  have limit := geometry.total_high
  rw [kLimit] at limit
  obtain ⟨next, performed, kept, touched⟩ := forEachSlice_rule disk t.totalLength base data.length
    (fun path bufPos n fileOff => pwriteAll kernel path (slice data bufPos n) fileOff)
    mounted.tiled mounted.totalLength (by omega) bound
    (fun done state => Holds disk.files state (splice array base (slice data 0 done)) ∧
      InBounds disk.files store state) store
    (by
      rintro f member done state ⟨before, touched⟩ more low high
      obtain ⟨n, count⟩ : ∃ n, n = min (data.length - done) (f.offset + f.length - (base + done)) :=
        ⟨_, rfl⟩
      rw [← count]
      have head : (slice data 0 done).length = done := slice_length _ _ _ (by omega)
      have chunk : (slice data done n).length = n := slice_length _ _ _ (by omega)
      have size : (splice array base (slice data 0 done)).length = t.totalLength := by
        rw [splice_length _ _ _ (by omega), width]
      have backed := before.backed mounted.tiled size f member
      obtain ⟨next, performed, written, inside⟩ := pwriteAll_ok kernel f.path
        (slice data done n) (base + done - f.offset) state (by omega)
      refine ⟨next, performed, ?_, touched.trans (inside.inBounds member (by omega))⟩
      have placed := before.write mounted.tiled mounted.paths size f member (base + done)
        (slice data done n) low (by omega) written
      have joined := splice_append array base (slice data 0 done) (slice data done n) (by omega)
      have whole := slice_append data 0 done n
      rw [Nat.zero_add] at whole
      rw [head, ← whole] at joined
      rw [← joined]
      exact placed)
    ⟨by rw [slice_zero, splice_nil]; exact holds, InBounds.refl _ _⟩
  rw [slice_all] at kept
  exact ⟨next, performed, kept, touched⟩

theorem readRange_ok (base len : Nat) (bound : base + len ≤ t.totalLength) :
    ∃ next, disk.forEachSlice base len (readInto kernel) (store, List.replicate len 0) =
        .ok () (next, slice array base len) ∧
      next.content = store.content ∧ InBounds disk.files store next := by
  have limit := geometry.total_high
  rw [kLimit] at limit
  obtain ⟨⟨next, out⟩, performed, same, filled, touched⟩ := forEachSlice_rule disk t.totalLength base len
    (readInto kernel) mounted.tiled mounted.totalLength (by omega) bound
    (fun done state => state.1.content = store.content ∧
      state.2 = splice (List.replicate len 0) 0 (slice array base done) ∧
      InBounds disk.files store state.1) (store, List.replicate len 0)
    (by
      rintro f member done ⟨state, out⟩ ⟨same, filled, touched⟩ more low high
      obtain ⟨n, count⟩ : ∃ n, n = min (len - done) (f.offset + f.length - (base + done)) := ⟨_, rfl⟩
      rw [← count]
      dsimp only at same filled touched
      have backed := holds.backed mounted.tiled width f member
      have bounds := (Tiled.bounds _ 0 _ mounted.tiled).2 f member
      obtain ⟨next, performed, kept, inside⟩ := preadLoop_ok kernel f.path n n
        (base + done - f.offset) state (Nat.le_refl n) (by rw [same]; omega)
      -- the file's slice, and so the bytes read, are the array's
      have bytes : slice (state.content f.path) (base + done - f.offset) n = slice array (base + done) n := by
        have window := slice_slice (store.content f.path) 0 f.length (base + done - f.offset) n
          (by omega)
        rw [Nat.zero_add, holds f member, slice_slice _ _ _ _ _ (by omega)] at window
        rw [same, ← window]
        congr 1
        omega
      have done_width : (slice array base done).length = done := slice_length _ _ _ (by omega)
      refine ⟨(next, splice out done (slice array (base + done) n)), ?_, ?_, ?_, ?_⟩
      · have read : preadAll kernel f.path n (base + done - f.offset) state =
            .ok (slice array (base + done) n) next := by rw [← bytes]; exact performed
        simp only [readInto, read]
      · rw [kept, same]
      · have joined := splice_append (List.replicate len (0 : UInt8)) 0 (slice array base done)
          (slice array (base + done) n) (by rw [List.length_replicate]; omega)
        rw [done_width, Nat.zero_add, ← slice_append] at joined
        rw [filled, joined]
      · exact touched.trans (inside.inBounds member (by omega)))
    ⟨rfl, by rw [slice_zero, splice_nil], InBounds.refl _ _⟩
  have all : out = slice array base len := by
    have size : (slice array base len).length = len := slice_length _ _ _ (by omega)
    have whole := splice_whole (List.replicate len (0 : UInt8)) (slice array base len)
      (by rw [size, List.length_replicate])
    rw [whole] at filled
    exact filled
  exact ⟨next, by rw [performed, all], same, touched⟩

end Operations

end TorrentPeer.DiskManager
