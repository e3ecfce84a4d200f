import TorrentPeer.Metainfo.Torrent
import TorrentPeer.Metainfo.ParserGrammar
import Mathlib.Algebra.Order.BigOperators.Group.List
import Mathlib.Data.Rat.Floor
import Mathlib.Tactic.Linarith
import Mathlib.Tactic.Ring

/-! What `parse_torrent` guarantees about an accepted torrent: exact lengths, the
piece grid, and paths a file system can hold side by side. -/

namespace TorrentPeer.Torrent

open Splice BencodeValue

theorem toU64_nonnegative (value : Int) (low : 0 ≤ value) (high : value < 2 ^ 64) :
    toU64 value = value.toNat := by
  rw [toU64, Int.emod_eq_of_lt low high]

theorem subU64_le (left right : Nat) (ordered : right ≤ left) (bound : left < 2 ^ 64) :
    subU64 left right = left - right := by
  rw [subU64, Nat.mod_eq_of_lt (by omega : right < 2 ^ 64)]
  have carry : left + (2 ^ 64 - right) = left - right + 2 ^ 64 := by omega
  rw [carry, Nat.add_mod_right, Nat.mod_eq_of_lt (by omega)]

theorem toOption_ok {α : Type} {result : Except Exn α} {value : α}
    (present : result.toOption = some value) : result = .ok value := by
  cases result with
  | error problem => cases present
  | ok found => exact congrArg Except.ok (Option.some.inj present)

theorem failIf_ok {condition : Prop} [Decidable condition] {what : String} {result : Unit}
    (passed : failIf condition what = .ok result) : ¬ condition := by
  intro holds
  rw [failIf, if_pos holds] at passed
  cases passed

theorem forM_ok {α : Type} (items : List α) (check : α → Except Exn Unit) (result : Unit)
    (passed : items.forM check = .ok result) : ∀ item ∈ items, check item = .ok () := by
  induction items with
  | nil => intro item member; cases member
  | cons head tail ih =>
    have stepwise : (check head >>= fun _ => tail.forM check) = .ok result := passed
    obtain ⟨⟨⟩, first, rest⟩ := bind_ok stepwise
    intro item member
    rcases List.mem_cons.mp member with rfl | later
    · exact first
    · exact ih rest item later

def layoutLengths (t : TorrentFile) : List Nat :=
  match t.files with
  | some files => files.map (fun file => file.length.toNat)
  | none => [(t.length.getD 0).toNat]

theorem sumLengths_exact (files : List FileInfo) (total result : Nat)
    (valid : ∀ file ∈ files, 0 ≤ file.length ∧ file.length ≤ 2 ^ 63 - 1) (bound : total ≤ kLimit)
    (summed : sumLengths files total = .ok result) :
    result = total + (files.map (fun file => file.length.toNat)).sum ∧ result ≤ kLimit := by
  induction files generalizing total with
  | nil =>
    cases summed
    exact ⟨by simp, bound⟩
  | cons file files ih =>
    obtain ⟨low, high⟩ := valid file (by simp)
    have converted := toU64_nonnegative file.length low (by omega)
    rw [kLimit] at bound
    rw [sumLengths, converted] at summed
    have exact_sum : addU64 file.length.toNat total = file.length.toNat + total := by
      rw [addU64, Nat.mod_eq_of_lt (by omega)]
    have exact_total : addU64 total file.length.toNat = total + file.length.toNat := by
      rw [addU64, Nat.mod_eq_of_lt (by omega)]
    rw [exact_sum, exact_total] at summed
    split at summed
    · cases summed
    rename_i small
    obtain ⟨result_eq, limit⟩ := ih (total + file.length.toNat)
      (fun other member => valid other (by simp [member])) (by omega) summed
    refine ⟨?_, limit⟩
    rw [result_eq, List.map_cons, List.sum_cons]
    omega

theorem between_extension (first second third : List Bytes) (low : first ≤ second)
    (high : second ≤ third) (extends_first : first <+: third) : first <+: second := by
  induction first generalizing second third with
  | nil => exact List.nil_prefix
  | cons head tail ih =>
    obtain ⟨rest, rfl⟩ := extends_first
    cases second with
    | nil => simp at low
    | cons middle others =>
      rw [List.cons_append] at high
      have same : head = middle :=
        Std.le_antisymm (List.left_le_left_of_cons_le_cons low)
          (List.left_le_left_of_cons_le_cons high)
      subst same
      have inner := ih others (tail ++ rest) (List.le_of_cons_le_cons low)
        (List.le_of_cons_le_cons high) (List.prefix_append tail rest)
      exact List.cons_prefix_cons.mpr ⟨rfl, inner⟩

theorem checkNeighbours_pairwise (paths : List (List Bytes))
    (sorted : paths.Pairwise (· ≤ ·)) (passed : checkNeighbours paths = .ok ()) :
    paths.Pairwise (fun first second => ¬ first <+: second) := by
  induction paths with
  | nil => exact List.Pairwise.nil
  | cons curr rest ih =>
    cases rest with
    | nil => simp
    | cons next rest =>
      rw [checkNeighbours] at passed
      split at passed
      · cases passed
      rename_i apart
      obtain ⟨above, tail⟩ := List.pairwise_cons.mp sorted
      have not_next : ¬ curr <+: next := by
        intro extension
        exact apart ⟨extension.length_le, (List.prefix_iff_eq_take.mp extension).symm⟩
      refine List.pairwise_cons.mpr ⟨?_, ih tail passed⟩
      intro other member extension
      rcases List.mem_cons.mp member with rfl | later
      · exact not_next extension
      · exact not_next (between_extension curr next other (above next (by simp))
          ((List.pairwise_cons.mp tail).1 other later) extension)

def PathsApart (paths : List (List Bytes)) : Prop :=
  paths.Pairwise (fun first second => ¬ first <+: second ∧ ¬ second <+: first)

theorem sorted_apart (paths : List (List Bytes))
    (passed : checkNeighbours (paths.insertionSort (· ≤ ·)) = .ok ()) : PathsApart paths := by
  have sorted := List.pairwise_insertionSort (· ≤ ·) paths
  have forward := checkNeighbours_pairwise _ sorted passed
  -- a later path is never below an earlier one, so it is no prefix of it either
  have both : (paths.insertionSort (· ≤ ·)).Pairwise
      (fun first second => ¬ first <+: second ∧ ¬ second <+: first) := by
    refine (sorted.and forward).imp ?_
    rintro first second ⟨ordered, apart⟩
    refine ⟨apart, fun extension => ?_⟩
    have same : first = second := Std.le_antisymm ordered extension.le
    exact apart (same ▸ List.prefix_refl first)
  exact ((List.perm_insertionSort (· ≤ ·) paths).pairwise_iff
    (fun apart => ⟨apart.2, apart.1⟩)).mp both

theorem checkNeighbours_passes (paths : List (List Bytes))
    (apart : paths.Pairwise (fun first second => ¬ first <+: second)) : checkNeighbours paths = .ok () := by
  induction paths with
  | nil => rfl
  | cons curr rest ih =>
    obtain ⟨above, tail⟩ := List.pairwise_cons.mp apart
    cases rest with
    | nil => rfl
    | cons next rest =>
      rw [checkNeighbours, if_neg, ih tail]
      rintro ⟨-, same⟩
      exact above next (by simp) (List.prefix_iff_eq_take.mpr same.symm)

/-- Comparing neighbours after the sort compares all pairs. -/
theorem sorted_check (paths : List (List Bytes)) :
    checkNeighbours (paths.insertionSort (· ≤ ·)) = .ok () ↔ PathsApart paths := by
  constructor
  · exact sorted_apart paths
  · intro apart
    apply checkNeighbours_passes
    have sorted : PathsApart (paths.insertionSort (· ≤ ·)) :=
      ((List.perm_insertionSort (· ≤ ·) paths).pairwise_iff (fun apart => ⟨apart.2, apart.1⟩)).mpr apart
    exact sorted.imp And.left

section Fields

open Bencode

theorem entries_formed (entries : List (Bytes × BencodeValue)) (formed : WellFormedEntries entries) :
    ∀ entry ∈ entries, WellFormed entry.2 := by
  induction entries with
  | nil => intro entry member; cases member
  | cons head tail ih =>
    intro entry member
    rcases List.mem_cons.mp member with rfl | later
    · exact formed.1
    · exact ih formed.2 entry later

theorem items_formed (items : List BencodeValue) (formed : WellFormedItems items) :
    ∀ item ∈ items, WellFormed item := by
  induction items with
  | nil => intro item member; cases member
  | cons head tail ih =>
    intro item member
    rcases List.mem_cons.mp member with rfl | later
    · exact formed.1
    · exact ih formed.2 item later

theorem lookup_formed (entries : List (Bytes × BencodeValue)) (key : String) (value : BencodeValue)
    (formed : WellFormedEntries entries) (found : lookup entries key = some value) :
    WellFormed value := by
  obtain ⟨entry, located, same⟩ := Option.map_eq_some_iff.mp found
  exact same ▸ entries_formed entries formed entry (List.mem_of_find?_eq_some located)

theorem at_lookup (entries : List (Bytes × BencodeValue)) (key : String) (value : BencodeValue)
    (found : at' entries key = .ok value) : lookup entries key = some value := by
  unfold at' at found
  split at found
  · rename_i located
    rw [located, Except.ok.inj found]
  · cases found

theorem getDict_formed (value : BencodeValue) (entries : List (Bytes × BencodeValue))
    (formed : WellFormed value) (read : value.getDict = .ok entries) : WellFormedEntries entries := by
  cases value with
  | dict items =>
    cases read
    exact formed.1
  | int _ => cases read
  | str _ => cases read
  | list _ => cases read

theorem getList_formed (value : BencodeValue) (items : List BencodeValue)
    (formed : WellFormed value) (read : value.getList = .ok items) : WellFormedItems items := by
  cases value with
  | list inner =>
    cases read
    exact formed
  | int _ => cases read
  | str _ => cases read
  | dict _ => cases read

theorem getInt_range (value : BencodeValue) (number : Int) (formed : WellFormed value)
    (read : value.getInt = .ok number) : int64Min ≤ number ∧ number ≤ int64Max := by
  cases value with
  | int inner =>
    cases read
    exact formed
  | list _ => cases read
  | str _ => cases read
  | dict _ => cases read

theorem rootDict_formed (root : BencodeValue) (dict : List (Bytes × BencodeValue))
    (formed : WellFormed root) (read : rootDict root = .ok dict) : WellFormedEntries dict := by
  cases root with
  | dict items =>
    cases read
    exact formed.1
  | int _ => cases read
  | str _ => cases read
  | list _ => cases read

theorem infoDict_formed (dict info : List (Bytes × BencodeValue)) (formed : WellFormedEntries dict)
    (read : infoDict dict = .ok info) : WellFormedEntries info := by
  unfold infoDict at read
  split at read
  · cases read
  · rename_i value located
    exact getDict_formed value info (lookup_formed _ _ _ formed located) read

theorem mapM_member {α β : Type} (items : List α) (read : α → Except Exn β) (results : List β)
    (done : items.mapM read = .ok results) :
    ∀ result ∈ results, ∃ item ∈ items, read item = .ok result := by
  induction items generalizing results with
  | nil =>
    rw [List.mapM_nil] at done
    cases done
    intro result member
    cases member
  | cons head tail ih =>
    rw [List.mapM_cons] at done
    obtain ⟨first, head_read, rest⟩ := bind_ok done
    obtain ⟨others, tail_read, rest⟩ := bind_ok rest
    cases rest
    intro result member
    rcases List.mem_cons.mp member with rfl | later
    · exact ⟨head, by simp, head_read⟩
    · obtain ⟨item, inside, same⟩ := ih others tail_read result later
      exact ⟨item, by simp [inside], same⟩

theorem readFile_range (value : BencodeValue) (file : FileInfo) (formed : WellFormed value)
    (read : readFile value = .ok file) : int64Min ≤ file.length ∧ file.length ≤ int64Max := by
  obtain ⟨entries, dict, rest⟩ := bind_ok read
  obtain ⟨length, located, rest⟩ := bind_ok rest
  obtain ⟨number, is_int, rest⟩ := bind_ok rest
  iterate 4 obtain ⟨_, _, rest⟩ := bind_ok rest
  cases rest
  exact getInt_range length number
    (lookup_formed entries "length" length (getDict_formed value entries formed dict)
      (at_lookup _ _ _ located)) is_int

theorem optional_some {α : Type} (entries : List (Bytes × BencodeValue)) (key : String)
    (read : BencodeValue → Except Exn α) (result : α)
    (done : optional entries key read = .ok (some result)) :
    ∃ value, lookup entries key = some value ∧ read value = .ok result := by
  unfold optional at done
  split at done
  · cases done
  · rename_i value located
    cases inner : read value with
    | error problem =>
      rw [inner] at done
      cases done
    | ok found =>
      rw [inner] at done
      have same := Option.some.inj (Except.ok.inj done)
      exact ⟨value, located, by rw [← same]; exact inner⟩

theorem generatePieces_digests (raw : Bytes) (pieces : List Bytes)
    (done : generatePieces raw = .ok pieces) :
    pieces.length = raw.length / 20 ∧ ∀ digest ∈ pieces, digest.length = 20 := by
  unfold generatePieces at done
  split at done
  · cases done
  rename_i whole
  cases done
  refine ⟨by simp, ?_⟩
  intro digest member
  obtain ⟨index, inside, rfl⟩ := List.mem_map.mp member
  rw [List.mem_range] at inside
  exact slice_length raw _ 20 (by omega)

/-- Lengths read from the input fit `int64_t`, digests are twenty bytes. -/
structure FieldRanges (t : TorrentFile) : Prop where
  single : ∀ length, t.length = some length → length ≤ int64Max
  several : ∀ files, t.files = some files → ∀ file ∈ files, file.length ≤ int64Max
  digests : ∀ digest ∈ t.pieces, digest.length = 20

theorem readFields_ranges (sha1 : Bytes → Bytes) (data : Bytes) (t : TorrentFile)
    (read : readFields sha1 data = .ok t) : FieldRanges t := by
  obtain ⟨⟨root, parser⟩, parsed, rest⟩ := bind_ok read
  obtain ⟨⟨_, _⟩, inner, checked⟩ := bind_ok parsed
  have formed : WellFormed root := by
    dsimp only at checked
    split at checked
    · cases checked
    cases checked
    exact ((BencodeParser.grammar_sound data _).1 BencodeParser.start root parser
      (by decide) (fun _ _ => trivial) inner).1
  obtain ⟨dict, dict_read, rest⟩ := bind_ok rest
  obtain ⟨info, info_read, rest⟩ := bind_ok rest
  have info_formed := infoDict_formed dict info (rootDict_formed root dict formed dict_read) info_read
  iterate 3 obtain ⟨_, _, rest⟩ := bind_ok rest
  obtain ⟨length, length_read, rest⟩ := bind_ok rest
  obtain ⟨files, files_read, rest⟩ := bind_ok rest
  iterate 9 obtain ⟨_, _, rest⟩ := bind_ok rest
  obtain ⟨raw, _, rest⟩ := bind_ok rest
  obtain ⟨pieces, pieces_read, rest⟩ := bind_ok rest
  cases rest
  refine ⟨?_, ?_, (generatePieces_digests raw pieces pieces_read).2⟩
  · intro number present
    dsimp only at present
    subst present
    obtain ⟨value, located, is_int⟩ := optional_some info "length" _ number length_read
    exact (getInt_range value number (lookup_formed _ _ _ info_formed located) is_int).2
  · intro entries present file member
    dsimp only at present
    subst present
    obtain ⟨value, located, is_list⟩ := optional_some info "files" _ entries files_read
    obtain ⟨items, items_read, each⟩ := bind_ok is_list
    obtain ⟨item, inside, file_read⟩ := mapM_member items readFile entries each file member
    have item_formed := items_formed items
      (getList_formed value items (lookup_formed _ _ _ info_formed located) items_read) item inside
    exact (readFile_range item file item_formed file_read).2

end Fields

/-- Everything later modules may assume of a torrent that `parse_torrent` returned. -/
structure Geometry (t : TorrentFile) : Prop where
  pieceLength_low : 0 < t.pieceLength
  pieceLength_high : t.pieceLength ≤ kPieceLengthCap
  total_high : t.totalLength ≤ kLimit
  total_sum : t.totalLength = (layoutLengths t).sum
  count : t.pieces.length = t.totalLength / t.pieceLength.toNat
    + (if t.totalLength % t.pieceLength.toNat ≠ 0 then 1 else 0)
  digests : ∀ digest ∈ t.pieces, digest.length = 20
  one_layout : t.length.isSome ≠ t.files.isSome
  single_low : ∀ length, t.length = some length → 0 ≤ length
  files_low : ∀ files, t.files = some files → ∀ file ∈ files, 0 ≤ file.length
  name_safe : checkComponent t.name = .ok ()
  paths_safe : ∀ files, t.files = some files → ∀ file ∈ files,
    file.path ≠ [] ∧ ∀ component ∈ file.path, checkComponent component = .ok ()
  paths_apart : ∀ files, t.files = some files → PathsApart (files.map FileInfo.path)

theorem checkFile_ok (file : FileInfo) (passed : checkFile file = .ok ()) :
    0 ≤ file.length ∧ file.path ≠ [] ∧
      ∀ component ∈ file.path, checkComponent component = .ok () := by
  unfold checkFile at passed
  split at passed
  · cases passed
  rename_i nonnegative
  split at passed
  · cases passed
  rename_i nonempty
  exact ⟨by omega, nonempty, forM_ok file.path checkComponent () passed⟩

theorem validateLayout_ok (t : TorrentFile) (passed : validateLayout t = .ok ()) :
    t.length.isSome ≠ t.files.isSome ∧ (∀ length, t.length = some length → 0 ≤ length) ∧
      checkComponent t.name = .ok () ∧ ∀ files, t.files = some files →
        (∀ file ∈ files, checkFile file = .ok ()) ∧ PathsApart (files.map FileInfo.path) := by
  obtain ⟨_, exclusive, rest⟩ := bind_ok passed
  obtain ⟨_, nonnegative, rest⟩ := bind_ok rest
  obtain ⟨⟨⟩, name, rest⟩ := bind_ok rest
  refine ⟨failIf_ok exclusive, ?_, name, ?_⟩
  · intro length present
    by_contra negative
    exact failIf_ok nonnegative ⟨length, present, by omega⟩
  · intro files present
    rw [present] at rest
    obtain ⟨_, each, sorted⟩ := bind_ok rest
    exact ⟨forM_ok files checkFile _ each, sorted_apart _ sorted⟩

theorem totalLength_sum (t : TorrentFile) (total : Nat) (ranges : FieldRanges t)
    (layout : validateLayout t = .ok ()) (summed : calculateTotalLength t = .ok total) :
    total = (layoutLengths t).sum ∧ total ≤ kLimit := by
  obtain ⟨exclusive, single, _, several⟩ := validateLayout_ok t layout
  unfold calculateTotalLength at summed
  unfold layoutLengths
  split at summed
  · rename_i length present
    have absent : t.files = none := by
      cases files : t.files with
      | none => rfl
      | some _ => simp [present, files] at exclusive
    have low := single length present
    have high := ranges.single length present
    rw [Bencode.int64Max] at high
    cases summed
    rw [absent, present, toU64_nonnegative length low (by omega)]
    simp only [Option.getD_some, List.sum_cons, List.sum_nil, kLimit]
    omega
  · rename_i files _ present
    rw [present]
    have valid : ∀ file ∈ files, 0 ≤ file.length ∧ file.length ≤ 2 ^ 63 - 1 := by
      intro file member
      have high := ranges.several files present file member
      rw [Bencode.int64Max] at high
      exact ⟨(checkFile_ok file ((several files present).1 file member)).1, by omega⟩
    obtain ⟨total_eq, limit⟩ := sumLengths_exact files 0 total valid (by decide) summed
    exact ⟨by rw [total_eq, Nat.zero_add], limit⟩
  · cases summed

theorem accepted_geometry (sha1 : Bytes → Bytes) (data : Bytes) (t : TorrentFile)
    (accepted : parseTorrent sha1 data = .ok t) : Geometry t := by
  obtain ⟨fields, read, rest⟩ := bind_ok accepted
  have ranges := readFields_ranges sha1 data fields read
  obtain ⟨_, in_range, rest⟩ := bind_ok rest
  obtain ⟨⟨⟩, layout, rest⟩ := bind_ok rest
  obtain ⟨total, summed, rest⟩ := bind_ok rest
  obtain ⟨_, counted, rest⟩ := bind_ok rest
  cases rest
  obtain ⟨positive, capped⟩ := not_or.mp (failIf_ok in_range)
  have expected := Classical.not_not.mp (failIf_ok counted)
  obtain ⟨exclusive, single, name, several⟩ := validateLayout_ok fields layout
  obtain ⟨total_eq, limit⟩ := totalLength_sum fields total ranges layout summed
  have converted : toU64 fields.pieceLength = fields.pieceLength.toNat := by
    rw [kPieceLengthCap] at capped
    exact toU64_nonnegative _ (by omega) (by omega)
  rw [converted] at expected
  refine ⟨Int.not_le.mp positive, Int.not_lt.mp capped, limit, total_eq, expected, ranges.digests, exclusive,
    single, ?_, name, ?_, ?_⟩
  · exact fun files present file member =>
      (checkFile_ok file ((several files present).1 file member)).1
  · exact fun files present file member =>
      (checkFile_ok file ((several files present).1 file member)).2
  · exact fun files present => (several files present).2

namespace Geometry

variable {t : TorrentFile} (geometry : Geometry t)

include geometry

theorem pieceLength_u64 : toU64 t.pieceLength = t.pieceLength.toNat := by
  have low := geometry.pieceLength_low
  have high := geometry.pieceLength_high
  rw [kPieceLengthCap] at high
  exact toU64_nonnegative _ (by omega) (by omega)

theorem files_high (files : List FileInfo) (several : t.files = some files) (file : FileInfo)
    (member : file ∈ files) : file.length.toNat ≤ kLimit := by
  have total := geometry.total_high
  rw [geometry.total_sum, layoutLengths, several] at total
  have listed : file.length.toNat ∈ files.map (fun file => file.length.toNat) :=
    List.mem_map.mpr ⟨file, member, rfl⟩
  exact Nat.le_trans (List.le_sum_of_mem listed) total

theorem single_high (length : Int) (present : t.length = some length) : length.toNat ≤ kLimit := by
  have absent : t.files = none := by
    cases files : t.files with
    | none => rfl
    | some _ => exact absurd (by rw [present, files]; rfl) geometry.one_layout
  have total := geometry.total_high
  rw [geometry.total_sum, layoutLengths, absent, present] at total
  simpa using total

theorem pieceLength_positive : 0 < t.pieceLength.toNat := by
  have low := geometry.pieceLength_low
  omega

theorem pieceLength_cap : t.pieceLength.toNat ≤ 2 ^ 26 := by
  have high := geometry.pieceLength_high
  rw [kPieceLengthCap] at high
  omega

theorem grid :
    t.totalLength ≤ t.pieces.length * t.pieceLength.toNat ∧
      t.pieces.length * t.pieceLength.toNat < t.totalLength + t.pieceLength.toNat := by
  have positive := geometry.pieceLength_positive
  have split := Nat.div_add_mod t.totalLength t.pieceLength.toNat
  have small := Nat.mod_lt t.totalLength positive
  rw [geometry.count, Nat.mul_comm]
  split
  · rw [Nat.mul_add]
    omega
  · rw [Nat.mul_add]
    omega

theorem pieces_bound : t.pieces.length ≤ t.totalLength := by
  have positive := geometry.pieceLength_positive
  have inside := geometry.grid.2
  by_contra large
  have one_more : (t.totalLength + 1) * t.pieceLength.toNat ≤ t.pieces.length * t.pieceLength.toNat :=
    Nat.mul_le_mul_right _ (by omega)
  rw [Nat.add_mul, Nat.one_mul] at one_more
  have scaled : t.totalLength * 1 ≤ t.totalLength * t.pieceLength.toNat :=
    Nat.mul_le_mul_left _ positive
  omega

theorem start_inside (index : Nat) (inside : index < t.pieces.length) :
    index * t.pieceLength.toNat < t.totalLength := by
  have last : (index + 1) * t.pieceLength.toNat ≤ t.pieces.length * t.pieceLength.toNat :=
    Nat.mul_le_mul_right _ inside
  rw [Nat.add_mul, Nat.one_mul] at last
  have grid := geometry.grid.2
  omega

theorem pieceSize_min (index : Nat) (inside : index < t.pieces.length) :
    pieceSize t index = min t.pieceLength.toNat (t.totalLength - index * t.pieceLength.toNat) := by
  have limit := geometry.total_high
  rw [kLimit] at limit
  have few := geometry.pieces_bound
  have start := geometry.start_inside index inside
  have grid := geometry.grid
  unfold pieceSize
  rw [subU64_le _ _ (by omega) (by omega), geometry.pieceLength_u64]
  split
  · rename_i last
    have count : t.pieces.length = index + 1 := by omega
    rw [count, Nat.add_mul, Nat.one_mul] at grid
    rw [mulU64, Nat.mod_eq_of_lt (by omega), subU64_le _ _ (by omega) (by omega)]
    omega
  · rename_i not_last
    have next := geometry.start_inside (index + 1) (by omega)
    rw [Nat.add_mul, Nat.one_mul] at next
    omega

theorem pieceSize_positive (index : Nat) (inside : index < t.pieces.length) :
    0 < pieceSize t index := by
  have start := geometry.start_inside index inside
  have positive := geometry.pieceLength_positive
  rw [geometry.pieceSize_min index inside]
  omega

theorem pieceSize_le (index : Nat) (inside : index < t.pieces.length) :
    pieceSize t index ≤ t.pieceLength.toNat := by
  rw [geometry.pieceSize_min index inside]
  omega

theorem piece_end (index : Nat) (inside : index < t.pieces.length) :
    index * t.pieceLength.toNat + pieceSize t index ≤ t.totalLength := by
  have start := geometry.start_inside index inside
  rw [geometry.pieceSize_min index inside]
  omega

theorem pieces_apart (i j : Nat) (left : i < t.pieces.length) (right : j < t.pieces.length)
    (different : i ≠ j) :
    i * t.pieceLength.toNat + pieceSize t i ≤ j * t.pieceLength.toNat ∨
      j * t.pieceLength.toNat + pieceSize t j ≤ i * t.pieceLength.toNat := by
  have first := geometry.pieceSize_le i left
  have second := geometry.pieceSize_le j right
  rcases Nat.lt_or_gt_of_ne different with below | above
  · have step := Nat.mul_le_mul_right t.pieceLength.toNat (show i + 1 ≤ j from below)
    rw [Nat.add_mul, Nat.one_mul] at step
    omega
  · have step := Nat.mul_le_mul_right t.pieceLength.toNat (show j + 1 ≤ i from above)
    rw [Nat.add_mul, Nat.one_mul] at step
    omega

end Geometry

section Exactness

def exactLength (t : TorrentFile) : Int :=
  match t.files with
  | some files => (files.map FileInfo.length).sum
  | none => t.length.getD 0

def InPiece (t : TorrentFile) (index offset : Nat) : Prop :=
  index * t.pieceLength.toNat ≤ offset ∧ offset < index * t.pieceLength.toNat + pieceSize t index

/-- Lengths and pieces as exact integers give them. -/
structure Exact (t : TorrentFile) : Prop where
  lengths : ∀ length ∈ t.length, 0 ≤ length
  files : ∀ files ∈ t.files, ∀ file ∈ files, 0 ≤ file.length
  total : (t.totalLength : Int) = exactLength t
  limit : exactLength t ≤ 2 ^ 63 - 1
  pieceLength : 1 ≤ t.pieceLength ∧ t.pieceLength ≤ 64 * 1024 * 1024
  count : (t.pieces.length : Int) = ⌈(exactLength t : ℚ) / t.pieceLength⌉
  digests : ∀ digest ∈ t.pieces, digest.length = 20
  sizes : ∀ i < t.pieces.length, (pieceSize t i : Int) =
    if i + 1 = t.pieces.length then t.totalLength - i * t.pieceLength else t.pieceLength
  bounds : ∀ i < t.pieces.length, 1 ≤ pieceSize t i ∧ (pieceSize t i : Int) ≤ t.pieceLength
  contiguous : ∀ i, i + 1 < t.pieces.length →
    i * t.pieceLength.toNat + pieceSize t i = (i + 1) * t.pieceLength.toNat
  disjoint : ∀ i < t.pieces.length, ∀ j < t.pieces.length, ∀ offset,
    InPiece t i offset → InPiece t j offset → i = j
  cover : ∀ offset, offset < t.totalLength ↔ ∃ i < t.pieces.length, InPiece t i offset

theorem sum_toNat (lengths : List Int) (low : ∀ length ∈ lengths, 0 ≤ length) :
    ((lengths.map Int.toNat).sum : Int) = lengths.sum := by
  induction lengths with
  | nil => rfl
  | cons head tail ih =>
    have first := low head (by simp)
    have rest := ih (fun length member => low length (by simp [member]))
    rw [List.map_cons, List.sum_cons, List.sum_cons, Nat.cast_add, rest, Int.toNat_of_nonneg first]

namespace Geometry

variable {t : TorrentFile} (geometry : Geometry t)

include geometry

theorem total_exact : (t.totalLength : Int) = exactLength t := by
  rw [geometry.total_sum, layoutLengths, exactLength]
  cases several : t.files with
  | some files =>
    have low : ∀ length ∈ files.map FileInfo.length, 0 ≤ length := by
      intro length member
      obtain ⟨file, inside, rfl⟩ := List.mem_map.mp member
      exact geometry.files_low files several file inside
    have exact_sum := sum_toNat (files.map FileInfo.length) low
    rw [List.map_map] at exact_sum
    exact exact_sum
  | none =>
    have given : t.length ≠ none := by
      intro absent
      exact geometry.one_layout (by rw [several, absent]; rfl)
    obtain ⟨length, present⟩ := Option.ne_none_iff_exists'.mp given
    have low := geometry.single_low length present
    simp [present, low]

theorem pieceLength_cast : ((t.pieceLength.toNat : Nat) : Int) = t.pieceLength :=
  Int.toNat_of_nonneg (Int.le_of_lt geometry.pieceLength_low)

theorem count_ceil : (t.pieces.length : Int) = ⌈(exactLength t : ℚ) / t.pieceLength⌉ := by
  obtain ⟨covers, tight⟩ := geometry.grid
  have positive : (0 : ℚ) < t.pieceLength := by exact_mod_cast geometry.pieceLength_low
  have below : exactLength t ≤ t.pieces.length * t.pieceLength := by
    rw [← geometry.total_exact, ← geometry.pieceLength_cast]
    exact_mod_cast covers
  have above : (t.pieces.length : Int) * t.pieceLength < exactLength t + t.pieceLength := by
    rw [← geometry.total_exact, ← geometry.pieceLength_cast]
    exact_mod_cast tight
  symm
  rw [Int.ceil_eq_iff]
  constructor
  · rw [lt_div_iff₀ positive, sub_mul, one_mul, sub_lt_iff_lt_add]
    exact_mod_cast above
  · rw [div_le_iff₀ positive]
    exact_mod_cast below

theorem pieceSize_last (i : Nat) (last : i + 1 = t.pieces.length) :
    i * t.pieceLength.toNat + pieceSize t i = t.totalLength := by
  have start := geometry.start_inside i (by omega)
  obtain ⟨covers, -⟩ := geometry.grid
  rw [← last, Nat.add_mul, Nat.one_mul] at covers
  rw [geometry.pieceSize_min i (by omega)]
  omega

theorem pieceSize_full (i : Nat) (inner : i + 1 < t.pieces.length) : pieceSize t i = t.pieceLength.toNat := by
  have next := geometry.start_inside (i + 1) inner
  rw [Nat.add_mul, Nat.one_mul] at next
  rw [geometry.pieceSize_min i (by omega)]
  omega

theorem pieces_cover (offset : Nat) :
    offset < t.totalLength ↔ ∃ i < t.pieces.length, InPiece t i offset := by
  have positive := geometry.pieceLength_positive
  constructor
  · intro inside
    have whole := Nat.div_add_mod offset t.pieceLength.toNat
    have small := Nat.mod_lt offset positive
    have product := Nat.mul_comm t.pieceLength.toNat (offset / t.pieceLength.toNat)
    have within : offset / t.pieceLength.toNat < t.pieces.length := by
      apply Nat.div_lt_of_lt_mul
      have covers := geometry.grid.1
      rw [Nat.mul_comm] at covers
      omega
    refine ⟨offset / t.pieceLength.toNat, within, by omega, ?_⟩
    rw [geometry.pieceSize_min _ within]
    omega
  · rintro ⟨i, within, low, high⟩
    have last := geometry.piece_end i within
    omega

theorem exact : Exact t where
  lengths length present := geometry.single_low length present
  files files several := geometry.files_low files several
  total := geometry.total_exact
  limit := by
    rw [← geometry.total_exact]
    have limit := geometry.total_high
    rw [kLimit] at limit
    omega
  pieceLength := ⟨geometry.pieceLength_low, geometry.pieceLength_high⟩
  count := geometry.count_ceil
  digests := geometry.digests
  sizes i inside := by
    have cast := geometry.pieceLength_cast
    split
    · rename_i last
      have whole := geometry.pieceSize_last i last
      rw [← whole, Nat.cast_add, Nat.cast_mul, cast]
      omega
    · rw [geometry.pieceSize_full i (by omega), cast]
  bounds i inside := by
    have cast := geometry.pieceLength_cast
    have high := geometry.pieceSize_le i inside
    exact ⟨geometry.pieceSize_positive i inside, by omega⟩
  contiguous i inner := by
    rw [geometry.pieceSize_full i inner, Nat.add_mul, Nat.one_mul]
  disjoint i left j right offset first second := by
    by_contra different
    rcases geometry.pieces_apart i j left right different with below | above
    · exact absurd (Nat.lt_of_lt_of_le first.2 (Nat.le_trans below second.1)) (Nat.lt_irrefl _)
    · exact absurd (Nat.lt_of_lt_of_le second.2 (Nat.le_trans above first.1)) (Nat.lt_irrefl _)
  cover := geometry.pieces_cover

end Geometry

theorem parseTorrent_fields {sha1 : Bytes → Bytes} {data : Bytes} {t : TorrentFile}
    (accepted : parseTorrent sha1 data = .ok t) :
    ∃ fields, readFields sha1 data = .ok fields ∧ t = { fields with totalLength := t.totalLength } := by
  obtain ⟨fields, read, rest⟩ := bind_ok accepted
  iterate 4 obtain ⟨_, _, rest⟩ := bind_ok rest
  cases rest
  exact ⟨fields, read, rfl⟩

/-- An accepted torrent has exact geometry, and an input whose fields can be read is not accepted
when a length is negative, the lengths exceed the limit or the pieces do not fit them. -/
theorem geometry_exact (sha1 : Bytes → Bytes) (data : Bytes) :
    (∀ t, parseTorrent sha1 data = .ok t → Exact t) ∧
    ∀ fields, readFields sha1 data = .ok fields →
      ((∃ length ∈ fields.length, length < 0) ∨
        (∃ files ∈ fields.files, ∃ file ∈ files, file.length < 0) ∨
        2 ^ 63 - 1 < exactLength fields ∨
        (fields.pieces.length : Int) ≠ ⌈(exactLength fields : ℚ) / fields.pieceLength⌉) →
      ∃ problem, parseTorrent sha1 data = .error problem := by
  constructor
  · intro t accepted
    exact (accepted_geometry sha1 data t accepted).exact
  · intro fields read fault
    cases outcome : parseTorrent sha1 data with
    | error problem => exact ⟨problem, rfl⟩
    | ok t =>
      exfalso
      have exact_t := (accepted_geometry sha1 data t outcome).exact
      obtain ⟨same, again, completed⟩ := parseTorrent_fields outcome
      rw [read] at again
      cases again
      rw [completed] at exact_t
      rcases fault with ⟨length, present, negative⟩ | ⟨files, several, file, member, negative⟩ | large | uneven
      · exact absurd (exact_t.lengths length present) (Int.not_le.mpr negative)
      · exact absurd (exact_t.files files several file member) (Int.not_le.mpr negative)
      · exact absurd exact_t.limit (Int.not_le.mpr large)
      · exact uneven exact_t.count

def oneFile (length : String) : Bytes :=
  ascii "d4:infod6:lengthi" ++ ascii length ++ ascii "e4:name1:a12:piece lengthi2e6:pieces40:" ++
    List.replicate 40 0 ++ ascii "ee"

theorem geometry_exact_three_bytes :
    (∃ t, parseTorrent (fun _ => []) (oneFile "3") = .ok t ∧ exactLength t = 3 ∧ Exact t) ∧
      ∃ problem, parseTorrent (fun _ => []) (oneFile "-3") = .error problem := by
  constructor
  · have three : (parseTorrent (fun _ => []) (oneFile "3")).toOption.map exactLength = some 3 := by
      decide +kernel
    obtain ⟨t, accepted, length⟩ := Option.map_eq_some_iff.mp three
    have outcome := toOption_ok accepted
    exact ⟨t, outcome, length, (geometry_exact _ _).1 t outcome⟩
  · have negative : (readFields (fun _ => []) (oneFile "-3")).toOption.map TorrentFile.length = some (some (-3)) := by
      decide +kernel
    obtain ⟨fields, read, length⟩ := Option.map_eq_some_iff.mp negative
    have outcome := toOption_ok read
    exact (geometry_exact _ _).2 fields outcome (.inl ⟨-3, length, by decide⟩)

end Exactness

end TorrentPeer.Torrent
