import TorrentPeer.Metainfo.Parser
import Mathlib.Data.List.Sort

/-! `parse_torrent` and the metainfo it delivers. SHA-1 is a parameter. -/

namespace TorrentPeer

open Splice

structure FileInfo where
  length : Int
  path : List Bytes
  deriving DecidableEq, Repr

structure TorrentFile where
  announce : Bytes := []
  announceList : List (List Bytes) := []
  urlList : List Bytes := []
  comment : Option Bytes := none
  createdBy : Option Bytes := none
  creationDate : Option Int := none
  encoding : Option Bytes := none
  name : Bytes := []
  pieceLength : Int := 0
  pieces : List Bytes := []
  infoHash : Bytes := []
  length : Option Int := none
  files : Option (List FileInfo) := none
  totalLength : Nat := 0
  deriving DecidableEq, Repr

def toU64 (value : Int) : Nat := (value % 2 ^ 64).toNat

def addU64 (left right : Nat) : Nat := (left + right) % 2 ^ 64

def subU64 (left right : Nat) : Nat := (left + (2 ^ 64 - right % 2 ^ 64)) % 2 ^ 64

def mulU64 (left right : Nat) : Nat := left * right % 2 ^ 64

namespace BencodeValue

def getInt : BencodeValue → Except Exn Int
  | .int value => .ok value
  | _ => .error .badVariantAccess

def getString : BencodeValue → Except Exn Bytes
  | .str text => .ok text
  | _ => .error .badVariantAccess

def getList : BencodeValue → Except Exn (List BencodeValue)
  | .list items => .ok items
  | _ => .error .badVariantAccess

def getDict : BencodeValue → Except Exn (List (Bytes × BencodeValue))
  | .dict entries => .ok entries
  | _ => .error .badVariantAccess

def lookup (entries : List (Bytes × BencodeValue)) (key : String) : Option BencodeValue :=
  (entries.find? (fun entry => decide (entry.1 = ascii key))).map Prod.snd

def at' (entries : List (Bytes × BencodeValue)) (key : String) : Except Exn BencodeValue :=
  match lookup entries key with
  | some value => .ok value
  | none => .error (.outOfRange (ascii "map::at"))

end BencodeValue

namespace Torrent

open BencodeValue

def kPieceLengthCap : Int := 64 * 1024 * 1024
def kLimit : Nat := 2 ^ 63 - 1

def fail {α : Type} (what : String) : Except Exn α := .error (.runtimeError (ascii what))

def failIf (condition : Prop) [Decidable condition] (what : String) : Except Exn Unit :=
  if condition then fail what else .ok ()

def checkComponent (c : Bytes) : Except Exn Unit :=
  if c = [] ∨ c = ascii "." ∨ c = ascii ".." ∨ (47 : UInt8) ∈ c ∨ (92 : UInt8) ∈ c ∨ (0 : UInt8) ∈ c then
    .error (.runtimeError (ascii "unsafe path component in torrent: '" ++ c ++ ascii "'"))
  else .ok ()

def checkFile (file : FileInfo) : Except Exn Unit :=
  if file.length < 0 then fail "negative file length"
  else if file.path = [] then fail "file with empty path"
  else file.path.forM checkComponent

def checkNeighbours : List (List Bytes) → Except Exn Unit
  | curr :: next :: rest =>
    if curr.length ≤ next.length ∧ next.take curr.length = curr then
      fail (if curr.length = next.length then "duplicate file path in torrent"
        else "file path is also used as a directory in torrent")
    else checkNeighbours (next :: rest)
  | _ => .ok ()

def validateLayout (t : TorrentFile) : Except Exn Unit := do
  failIf (t.length.isSome = t.files.isSome) "info needs exactly one of 'length' or 'files'"
  failIf (∃ length ∈ t.length, length < 0) "negative length"
  checkComponent t.name
  match t.files with
  | none => .ok ()
  | some files => do
      files.forM checkFile
      checkNeighbours ((files.map FileInfo.path).insertionSort (· ≤ ·))

def isMultifile (t : TorrentFile) : Bool := t.files.isSome

def generatePieces (raw : Bytes) : Except Exn (List Bytes) :=
  if raw.length % 20 ≠ 0 then fail "Pieces aren't a multiple of 20"
  else .ok ((List.range (raw.length / 20)).map (fun i => slice raw (20 * i) 20))

def sumLengths : List FileInfo → Nat → Except Exn Nat
  | [], total => .ok total
  | file :: files, total =>
    if kLimit < addU64 (toU64 file.length) total then fail "total length overflows"
    else sumLengths files (addU64 total (toU64 file.length))

def calculateTotalLength (t : TorrentFile) : Except Exn Nat :=
  match t.length, t.files with
  | some length, _ => .ok (toU64 length)
  | none, some files => sumLengths files 0
  -- std::optional::value on an empty optional; the layout check excludes it
  | none, none => .error .badVariantAccess

def pieceSize (t : TorrentFile) (pieceIndex : Nat) : Nat :=
  if pieceIndex = subU64 t.pieces.length 1 then
    subU64 t.totalLength (mulU64 pieceIndex (toU64 t.pieceLength))
  else toU64 t.pieceLength

def readFile (value : BencodeValue) : Except Exn FileInfo := do
  let length ← (← at' (← value.getDict) "length").getInt
  let components ← (← at' (← value.getDict) "path").getList
  let path ← components.mapM getString
  .ok ⟨length, path⟩

def readTier (value : BencodeValue) : Except Exn (List Bytes) := do
  (← value.getList).mapM getString

def optional {α : Type} (entries : List (Bytes × BencodeValue)) (key : String)
    (read : BencodeValue → Except Exn α) : Except Exn (Option α) :=
  match lookup entries key with
  | none => .ok none
  | some value => some <$> read value

def rootDict : BencodeValue → Except Exn (List (Bytes × BencodeValue))
  | .dict entries => .ok entries
  | _ => fail "Root is not a dict"

def infoDict (dict : List (Bytes × BencodeValue)) : Except Exn (List (Bytes × BencodeValue)) :=
  match lookup dict "info" with
  | none => fail "Missing info dict"
  | some value => value.getDict

/-- `parse_torrent` up to the info hash: the fields as the input gives them. -/
def readFields (sha1 : Bytes → Bytes) (data : Bytes) : Except Exn TorrentFile := do
  let (root, parser) ← BencodeParser.parse data
  let dict ← rootDict root
  let info ← infoDict dict
  let announce := (← optional dict "announce" getString).getD []
  let tiers := (← optional dict "announce-list"
    (fun value => do (← value.getList).mapM readTier)).getD []
  let announceList := if tiers = [] ∧ announce ≠ [] then [[announce]] else tiers
  let urlList := (← optional dict "url-list" readTier).getD []
  let length ← optional info "length" getInt
  let files ← optional info "files" (fun value => do (← value.getList).mapM readFile)
  let comment ← optional dict "comment" getString
  let createdBy ← optional dict "created by" getString
  let creationDate ← optional dict "creation date" getInt
  let encoding ← optional dict "encoding" getString
  let name ← (← at' info "name").getString
  let pieceLength ← (← at' info "piece length").getInt
  let pieces ← generatePieces (← (← at' info "pieces").getString)
  let (infoStart, infoEnd) := BencodeParser.getInfoRange parser
  .ok {
    announce := announce
    announceList := announceList
    urlList := urlList
    comment := comment
    createdBy := createdBy
    creationDate := creationDate
    encoding := encoding
    name := name
    pieceLength := pieceLength
    pieces := pieces
    infoHash := sha1 (slice data infoStart (infoEnd - infoStart))
    length := length
    files := files }

/-- The rest of `parse_torrent`: the checks, and the total length. -/
def checkFields (torrent : TorrentFile) : Except Exn TorrentFile := do
  failIf (torrent.pieceLength ≤ 0 ∨ kPieceLengthCap < torrent.pieceLength)
    "piece length out of range"
  validateLayout torrent
  let totalLength ← calculateTotalLength torrent
  let pl := toU64 torrent.pieceLength
  let expected := totalLength / pl + (if totalLength % pl ≠ 0 then 1 else 0)
  failIf (torrent.pieces.length ≠ expected) "piece count doesn't match total length"
  .ok { torrent with totalLength := totalLength }

def parseTorrent (sha1 : Bytes → Bytes) (data : Bytes) : Except Exn TorrentFile := do
  checkFields (← readFields sha1 data)

end Torrent

end TorrentPeer
