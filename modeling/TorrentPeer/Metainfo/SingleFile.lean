import TorrentPeer.Metainfo.Geometry

/-! Metainfo of a single file: its canonical encoding is accepted, with every field
as given. -/

namespace TorrentPeer.Torrent

open Bencode BencodeValue

def singleFile (name : Bytes) (pieceLength length : Int) (pieces : Bytes) : BencodeValue :=
  .dict [(ascii "info", .dict [
    (ascii "length", .int length),
    (ascii "name", .str name),
    (ascii "piece length", .int pieceLength),
    (ascii "pieces", .str pieces)])]

theorem singleFile_canonical (name : Bytes) (pieceLength length : Int) (pieces : Bytes)
    (length_range : int64Min ≤ length ∧ length ≤ int64Max)
    (pieceLength_range : int64Min ≤ pieceLength ∧ pieceLength ≤ int64Max) :
    Canonical (singleFile name pieceLength length pieces) := by
  have ascending : [ascii "length", ascii "name", ascii "piece length", ascii "pieces"].Pairwise
      (· < ·) := by decide
  refine ⟨⟨⟨⟨⟨length_range, trivial, pieceLength_range, trivial, trivial⟩, ascending⟩, trivial⟩, ?_⟩, ?_⟩
  · exact List.pairwise_singleton _ _
  · simp [singleFile, nesting, nestingEntries, kMaxDepth]

theorem singleFile_accepted (sha1 : Bytes → Bytes) (name : Bytes) (pieceLength length : Int)
    (pieces : Bytes) (digests : List Bytes) (safe : checkComponent name = .ok ())
    (pieceLength_low : 0 < pieceLength) (pieceLength_high : pieceLength ≤ kPieceLengthCap)
    (length_low : 0 ≤ length) (length_high : length ≤ int64Max)
    (split : generatePieces pieces = .ok digests)
    (count : digests.length = length.toNat / pieceLength.toNat
      + (if length.toNat % pieceLength.toNat ≠ 0 then 1 else 0))
    (small : (encode (singleFile name pieceLength length pieces)).length < 2 ^ 64) :
    ∃ infoHash, parseTorrent sha1 (encode (singleFile name pieceLength length pieces)) = .ok {
      name := name
      pieceLength := pieceLength
      pieces := digests
      infoHash := infoHash
      length := some length
      totalLength := length.toNat } := by
  have in_range : int64Min ≤ pieceLength ∧ pieceLength ≤ int64Max := by
    rw [kPieceLengthCap] at pieceLength_high
    rw [int64Min, int64Max]
    omega
  have length_range : int64Min ≤ length := by
    rw [int64Min]
    omega
  obtain ⟨after, parsed⟩ := (BencodeParser.parse_accepts_iff _ _ small).mpr
    ⟨singleFile_canonical name pieceLength length pieces ⟨length_range, length_high⟩ in_range, rfl⟩
  obtain ⟨infoHash, read⟩ : ∃ infoHash, readFields sha1
      (encode (singleFile name pieceLength length pieces)) = .ok {
        name := name
        pieceLength := pieceLength
        pieces := digests
        infoHash := infoHash
        length := some length } := by
    refine ⟨sha1 (Splice.slice (encode (singleFile name pieceLength length pieces)) after.infoStart
      (after.infoEnd - after.infoStart)), ?_⟩
    rw [readFields, parsed]
    -- every lookup is on closed keys; only the digests are left to compute
    show (generatePieces pieces >>= fun listed => Except.ok ({
      name := name
      pieceLength := pieceLength
      pieces := listed
      infoHash := _
      length := some length } : TorrentFile)) = _
    rw [split]
    rfl
  refine ⟨infoHash, ?_⟩
  rw [parseTorrent, read]
  have exclusive : ¬ ((some length).isSome = (none : Option (List FileInfo)).isSome) := by simp
  have nonnegative : ¬ ∃ given ∈ some length, given < 0 := by
    rintro ⟨given, present, negative⟩
    cases present
    omega
  have positive : ¬ (pieceLength ≤ 0 ∨ kPieceLengthCap < pieceLength) := by omega
  have total : toU64 length = length.toNat := by
    rw [int64Max] at length_high
    exact toU64_nonnegative length length_low (by omega)
  have unit : toU64 pieceLength = pieceLength.toNat := by
    rw [int64Max] at in_range
    exact toU64_nonnegative pieceLength (by omega) (by omega)
  simp only [bind, Except.bind, checkFields, failIf, if_neg positive, validateLayout,
    if_neg exclusive, if_neg nonnegative, safe, calculateTotalLength, total, unit, count,
    ne_eq, not_true_eq_false, if_false]

theorem singleFile_length (name : Bytes) (pieceLength length : Int) (pieces : Bytes) :
    (encode (singleFile name pieceLength length pieces)).length + 1 =
      (encode (singleFile name pieceLength length [])).length
        + (Decimal.render pieces.length).length + pieces.length := by
  have zero : (Decimal.render 0).length = 1 := by decide
  simp only [singleFile, encode, encodeEntries, encodeString, List.length_append, List.length_cons,
    List.length_nil, zero]
  omega

theorem generatePieces_whole (count : Nat) :
    ∃ digests, generatePieces (List.replicate (20 * count) 0) = .ok digests ∧
      digests.length = count := by
  have whole : ¬ (List.replicate (20 * count) (0 : UInt8)).length % 20 ≠ 0 := by
    rw [List.length_replicate]
    omega
  refine ⟨_, by rw [generatePieces, if_neg whole], ?_⟩
  rw [List.length_map, List.length_range, List.length_replicate]
  omega

theorem wide_accepted (sha1 : Bytes → Bytes) :
    ∃ data t, parseTorrent sha1 data = .ok t ∧ t.pieces.length = 2 ^ 32 := by
  obtain ⟨digests, split, count⟩ := generatePieces_whole (2 ^ 32)
  have small : (encode (singleFile (ascii "a") 1 (2 ^ 32)
      (List.replicate (20 * 2 ^ 32) 0))).length < 2 ^ 64 := by
    have digits : (Decimal.render (20 * 2 ^ 32)).length = 11 := by decide
    have frame : (encode (singleFile (ascii "a") 1 (2 ^ 32) [])).length ≤ 100 := by decide
    have width := singleFile_length (ascii "a") 1 (2 ^ 32) (List.replicate (20 * 2 ^ 32) 0)
    rw [List.length_replicate, digits] at width
    omega
  obtain ⟨infoHash, accepted⟩ := singleFile_accepted sha1 (ascii "a") 1 (2 ^ 32)
    (List.replicate (20 * 2 ^ 32) 0) digests (by decide) (by decide) (by decide) (by decide)
    (by decide) split (by rw [count]; decide) small
  exact ⟨_, _, accepted, count⟩

end TorrentPeer.Torrent
