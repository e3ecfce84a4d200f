import TorrentPeer.Metainfo.Torrent
import TorrentPeer.Lib.Decimal

/-! `DiskManager`: the content of a torrent spread over its files. The kernel may
cut every `pwrite` and `pread` short; the `Kernel` argument says where. -/

namespace TorrentPeer

open Splice

abbrev Path := List Bytes

/-- One transfer between a buffer and a file. -/
structure Access where
  path : Path
  offset : Nat
  count : Nat
  deriving DecidableEq, Repr

/-- Distinct paths are distinct files. A file that does not exist is an empty one:
every path is opened with `O_CREAT`. -/
structure Store where
  content : Path → Bytes
  calls : Nat := 0
  accesses : List Access := []

structure Kernel where
  /-- Call number `k` moves at most `short k + 1` bytes. -/
  short : Nat → Nat
  /-- Whether `posix_fallocate` is supported under a path. -/
  fallocate : Path → Bool

structure FileEntry where
  path : Path
  offset : Nat
  length : Nat
  deriving DecidableEq, Repr

structure DiskManager where
  files : List FileEntry
  torrent : TorrentFile
  pieceLength : Nat
  totalLength : Nat
  pieceCount : Nat

namespace DiskManager

abbrev DiskM := EStateM Exn

def safeJoin (root : Path) : List Bytes → Except Exn Path
  | [] => .ok root
  | c :: components =>
    if c = [] ∨ c = ascii "." ∨ c = ascii ".." ∨ (47 : UInt8) ∈ c ∨ (92 : UInt8) ∈ c then
      .error (.runtimeError (ascii "unsafe path component in torrent: '" ++ c ++ ascii "'"))
    else safeJoin (root ++ [c]) components

/-- Content after `posix_fallocate` up to `length`: never shortened. -/
def extend (content : Bytes) (length : Nat) : Bytes :=
  content ++ List.replicate (length - content.length) 0

def ftruncate (content : Bytes) (length : Nat) : Bytes :=
  (extend content length).take length

def reserve (kernel : Kernel) (path : Path) (length : Nat) (content : Bytes) : Bytes :=
  if 0 < length ∧ kernel.fallocate path = true then extend content length
  else ftruncate content length

def pwrite (kernel : Kernel) (path : Path) (buf : Bytes) (offset : Nat) : DiskM Store Nat :=
  fun store =>
    let n := min buf.length (kernel.short store.calls + 1)
    let patched := splice (extend (store.content path) offset) offset (buf.take n)
    .ok n {
      content := Function.update store.content path patched
      calls := store.calls + 1
      accesses := store.accesses ++ [⟨path, offset, n⟩] }

def pread (kernel : Kernel) (path : Path) (count offset : Nat) : DiskM Store Bytes :=
  fun store =>
    let bytes := slice (store.content path) offset (min count (kernel.short store.calls + 1))
    .ok bytes { store with
      calls := store.calls + 1
      accesses := store.accesses ++ [⟨path, offset, bytes.length⟩] }

/-- The loop of `pwrite_all` on what is left of the buffer, around the call it makes. Every
round moves at least one byte, so the buffer's length bounds the rounds. -/
def pwriteLoop {σ : Type} (call : Bytes → Nat → DiskM σ Nat) : Nat → Bytes → Nat → DiskM σ Unit
  | _, [], _ => pure ()
  | 0, _ :: _, _ => throw (.undefined (ascii "pwrite_all"))
  | fuel + 1, buf, offset => do
      let n ← call buf offset
      if n = 0 then throw (.runtimeError (ascii "pwrite wrote 0 bytes"))
      else pwriteLoop call fuel (buf.drop n) (offset + n)

def pwriteAll (kernel : Kernel) (path : Path) (buf : Bytes) (offset : Nat) : DiskM Store Unit :=
  pwriteLoop (pwrite kernel path) buf.length buf offset

def preadLoop (kernel : Kernel) (path : Path) : Nat → Nat → Nat → DiskM Store Bytes
  | _, 0, _ => pure []
  | 0, _ + 1, _ => throw (.undefined (ascii "pread_all"))
  | fuel + 1, count, offset => do
      let bytes ← pread kernel path count offset
      if bytes.length = 0 then throw (.runtimeError (ascii "unexpected EOF while reading"))
      else do
        let rest ← preadLoop kernel path fuel (count - bytes.length) (offset + bytes.length)
        pure (bytes ++ rest)

def preadAll (kernel : Kernel) (path : Path) (count offset : Nat) : DiskM Store Bytes :=
  preadLoop kernel path count count offset

def layout (torrent : TorrentFile) (downloadDir : Path) : Except Exn (List (Path × Nat)) :=
  if Torrent.isMultifile torrent = true then do
    let root ← safeJoin downloadDir [torrent.name]
    (torrent.files.getD []).mapM (fun f => do
      Torrent.failIf (f.length < 0) "negative file length"
      let path ← safeJoin root f.path
      pure (path, toU64 f.length))
  else do
    let path ← safeJoin downloadDir [torrent.name]
    pure [(path, toU64 (torrent.length.getD 0))]

def openFiles (kernel : Kernel) : List (Path × Nat) → Nat → Store → List FileEntry × Nat × Store
  | [], cursor, store => ([], cursor, store)
  | (path, length) :: rest, cursor, store =>
    let reserved := { store with
      content := Function.update store.content path
        (reserve kernel path length (store.content path)) }
    let (files, last, final) := openFiles kernel rest (addU64 cursor length) reserved
    (if 0 < length then ⟨path, cursor, length⟩ :: files else files, last, final)

def create (kernel : Kernel) (torrent : TorrentFile) (downloadDir : Path) :
    DiskM Store DiskManager := fun store =>
  let pieceLength := toU64 torrent.pieceLength
  if pieceLength = 0 then .error (.runtimeError (ascii "torrent has piece_length 0")) store
  else
    match layout torrent downloadDir with
    | .error problem => .error problem store
    | .ok entries =>
      let (files, cursor, opened) := openFiles kernel entries 0 store
      if cursor ≠ torrent.totalLength then
        .error (.runtimeError (ascii "file lengths (" ++ Decimal.render cursor
          ++ ascii ") do not sum to total_length (" ++ Decimal.render torrent.totalLength
          ++ ascii ")")) opened
      else
        .ok {
          files := files
          torrent := torrent
          pieceLength := pieceLength
          totalLength := torrent.totalLength
          pieceCount := torrent.pieces.length % 2 ^ 32 } opened

/-- `std::upper_bound` over the offsets, then one step back. -/
def locate (disk : DiskManager) (offset : Nat) : Except Exn Nat :=
  let it := (disk.files.takeWhile (fun e => decide (¬ offset < e.offset))).length
  if it = 0 then .error (.outOfRange (ascii "offset before start of torrent"))
  else .ok (it - 1)

/-- The loop of `for_each_slice`; the list is what `files_` holds from the index on. -/
def sliceLoop {σ : Type} (globalOffset len : Nat) (op : Path → Nat → Nat → Nat → DiskM σ Unit) :
    List FileEntry → Nat → DiskM σ Unit
  | rest, done =>
    if done < len then
      match rest with
      | [] => throw (.undefined (ascii "files_"))
      | f :: rest => do
          let fileOff := subU64 (addU64 globalOffset done) f.offset
          let n := min (len - done) (subU64 f.length fileOff)
          op f.path done n fileOff
          sliceLoop globalOffset len op rest (addU64 done n)
    else pure ()

def forEachSlice {σ : Type} (disk : DiskManager) (globalOffset len : Nat)
    (op : Path → Nat → Nat → Nat → DiskM σ Unit) : DiskM σ Unit :=
  if len = 0 then pure ()
  else if disk.totalLength < addU64 globalOffset len then
    throw (.outOfRange (ascii "range extends past the end of the torrent"))
  else
    match disk.locate globalOffset with
    | .error problem => throw problem
    | .ok index => sliceLoop globalOffset len op (disk.files.drop index) 0

/-- `write_piece` around the `pwrite_all` it calls. -/
def writePieceBy {σ : Type} (writeAll : Path → Bytes → Nat → DiskM σ Unit) (disk : DiskManager)
    (piece : CompletedPiece) : DiskM σ Unit :=
  if disk.pieceCount ≤ piece.index then
    throw (.outOfRange (ascii "piece index out of range"))
  else
    disk.forEachSlice (mulU64 piece.index disk.pieceLength) piece.data.length
      (fun path bufPos n fileOff => writeAll path (slice piece.data bufPos n) fileOff)

def writePiece (kernel : Kernel) (disk : DiskManager) (piece : CompletedPiece) : DiskM Store Unit :=
  writePieceBy (pwriteAll kernel) disk piece

/-- The slice operation of `read_block`: the file's bytes land in the output buffer. -/
def readInto (kernel : Kernel) (path : Path) (bufPos n fileOff : Nat) :
    DiskM (Store × Bytes) Unit := fun (store, out) =>
  match preadAll kernel path n fileOff store with
  | .ok bytes next => .ok () (next, splice out bufPos bytes)
  | .error problem next => .error problem (next, out)

def readBlock (kernel : Kernel) (disk : DiskManager) (pieceIndex offset length : Nat) :
    DiskM Store Bytes := fun store =>
  if disk.pieceCount ≤ pieceIndex then
    .error (.outOfRange (ascii "piece index out of range")) store
  else if Torrent.pieceSize disk.torrent pieceIndex < addU64 offset length then
    .error (.outOfRange (ascii "read_block range extends past the piece")) store
  else
    let globalOffset := addU64 (mulU64 pieceIndex disk.pieceLength) offset
    match disk.forEachSlice globalOffset length (readInto kernel) (store, List.replicate length 0) with
    | .ok _ (next, out) => .ok out next
    | .error problem (next, _) => .error problem next

end DiskManager

end TorrentPeer
