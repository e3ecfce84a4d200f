import TorrentPeer.Metainfo.InfoSpan

/-! The torrents that can be loaded. A torrent that `parse_torrent` returns is well formed; and every well-formed
torrent, written as a canonical metainfo file, is accepted and comes back with every field as it was. -/

namespace TorrentPeer.Torrent

open Bencode BencodeValue Splice

def entriesOf (table : List (Bytes × Option BencodeValue)) : List (Bytes × BencodeValue) :=
  table.filterMap (fun field => field.2.map (fun value => (field.1, value)))

def nonEmpty {α : Type} (write : List α → BencodeValue) (items : List α) : Option BencodeValue :=
  if items = [] then none else some (write items)

def strings (texts : List Bytes) : BencodeValue := .list (texts.map BencodeValue.str)

def tiersValue (tiers : List (List Bytes)) : BencodeValue := .list (tiers.map strings)

def fileValue (file : FileInfo) : BencodeValue :=
  .dict (entriesOf [(ascii "length", some (.int file.length)), (ascii "path", some (strings file.path))])

def filesValue (files : List FileInfo) : BencodeValue := .list (files.map fileValue)

def infoTable (t : TorrentFile) : List (Bytes × Option BencodeValue) :=
  [(ascii "files", t.files.map filesValue),
    (ascii "length", t.length.map BencodeValue.int),
    (ascii "name", some (.str t.name)),
    (ascii "piece length", some (.int t.pieceLength)),
    (ascii "pieces", some (.str t.pieces.flatten))]

def infoValue (t : TorrentFile) : BencodeValue := .dict (entriesOf (infoTable t))

def rootTable (t : TorrentFile) : List (Bytes × Option BencodeValue) :=
  [(ascii "announce", nonEmpty BencodeValue.str t.announce),
    (ascii "announce-list", nonEmpty tiersValue t.announceList),
    (ascii "comment", t.comment.map BencodeValue.str),
    (ascii "created by", t.createdBy.map BencodeValue.str),
    (ascii "creation date", t.creationDate.map BencodeValue.int),
    (ascii "encoding", t.encoding.map BencodeValue.str),
    (ascii "info", some (infoValue t)),
    (ascii "url-list", nonEmpty strings t.urlList)]

def metainfo (t : TorrentFile) : BencodeValue := .dict (entriesOf (rootTable t))

/-- What a torrent is once it has been loaded. -/
structure Loadable (t : TorrentFile) : Prop where
  geometry : Geometry t
  announces : t.announceList = [] → t.announce = []
  dated : ∀ date, t.creationDate = some date → int64Min ≤ date ∧ date ≤ int64Max

section Tables

variable {table : List (Bytes × Option BencodeValue)}

theorem lookup_entriesOf (distinct : (table.map Prod.fst).Nodup) (key : String) :
    lookup (entriesOf table) key = (table.find? (fun field => decide (field.1 = ascii key))).bind Prod.snd := by
  induction table with
  | nil => rfl
  | cons field table ih =>
    obtain ⟨fresh, others⟩ := List.nodup_cons.mp distinct
    obtain ⟨name, value⟩ := field
    have later := ih others
    by_cases here : name = ascii key
    · rw [List.find?_cons_of_pos (by exact decide_eq_true here), Option.bind_some]
      cases value with
      | some found => simp [entriesOf, lookup, here]
      | none =>
        have absent : table.find? (fun field => decide (field.1 = ascii key)) = none := by
          rw [List.find?_eq_none]
          intro other member same
          exact fresh (List.mem_map.mpr ⟨other, member, (of_decide_eq_true same).trans here.symm⟩)
        rw [absent, Option.bind_none] at later
        exact later
    · rw [List.find?_cons_of_neg (by simpa using here)]
      cases value with
      | some found =>
        rw [← later]
        simp [entriesOf, lookup, here]
      | none => exact later

theorem keys_entriesOf (table : List (Bytes × Option BencodeValue)) :
    ((entriesOf table).map Prod.fst).Sublist (table.map Prod.fst) := by
  induction table with
  | nil => exact List.Sublist.slnil
  | cons field table ih =>
    obtain ⟨name, value⟩ := field
    cases value with
    | none => exact ih.cons _
    | some found => exact ih.cons_cons _

def Formed (depth : Nat) (value : BencodeValue) : Prop := WellFormed value ∧ nesting value ≤ depth

theorem Formed.entries {depth : Nat} (ascending : (table.map Prod.fst).Pairwise (· < ·))
    (each : ∀ field ∈ table, ∀ value, field.2 = some value → Formed depth value) :
    Formed (depth + 1) (.dict (entriesOf table)) := by
  have inner : WellFormedEntries (entriesOf table) ∧ nestingEntries (entriesOf table) ≤ depth := by
    clear ascending
    induction table with
    | nil => exact ⟨trivial, Nat.zero_le _⟩
    | cons field table ih =>
      have rest := ih (fun other member => each other (List.mem_cons_of_mem _ member))
      obtain ⟨name, value⟩ := field
      cases value with
      | none => exact rest
      | some found =>
        obtain ⟨formed, shallow⟩ := each _ (List.mem_cons_self ..) found rfl
        exact ⟨⟨formed, rest.1⟩, Nat.max_le.mpr ⟨shallow, rest.2⟩⟩
  exact ⟨⟨inner.1, ascending.sublist (keys_entriesOf table)⟩, Nat.succ_le_succ inner.2⟩

theorem Formed.items {items : List BencodeValue} {depth : Nat} (each : ∀ item ∈ items, Formed depth item) :
    Formed (depth + 1) (.list items) := by
  have inner : WellFormedItems items ∧ nestingItems items ≤ depth := by
    induction items with
    | nil => exact ⟨trivial, Nat.zero_le _⟩
    | cons item items ih =>
      obtain ⟨formed, shallow⟩ := each item (List.mem_cons_self ..)
      have rest := ih (fun other member => each other (List.mem_cons_of_mem _ member))
      exact ⟨⟨formed, rest.1⟩, Nat.max_le.mpr ⟨shallow, rest.2⟩⟩
  exact ⟨inner.1, Nat.succ_le_succ inner.2⟩

theorem Formed.str (depth : Nat) (text : Bytes) : Formed depth (.str text) := ⟨trivial, Nat.zero_le _⟩

theorem Formed.int (depth : Nat) {value : Int} (range : int64Min ≤ value ∧ value ≤ int64Max) :
    Formed depth (.int value) :=
  ⟨range, Nat.zero_le _⟩

theorem Formed.deeper {depth deeper : Nat} {value : BencodeValue} (formed : Formed depth value)
    (more : depth ≤ deeper) :
    Formed deeper value :=
  ⟨formed.1, Nat.le_trans formed.2 more⟩

theorem Formed.strings (texts : List Bytes) : Formed 1 (strings texts) := by
  refine .items ?_
  intro item member
  obtain ⟨text, -, same⟩ := List.mem_map.mp member
  rw [← same]
  exact .str 0 text

theorem Formed.tiers (tiers : List (List Bytes)) : Formed 2 (tiersValue tiers) := by
  refine .items ?_
  intro item member
  obtain ⟨tier, -, same⟩ := List.mem_map.mp member
  rw [← same]
  exact .strings tier

theorem Formed.file {file : FileInfo} (range : int64Min ≤ file.length ∧ file.length ≤ int64Max) :
    Formed 2 (fileValue file) := by
  refine .entries ?_ ?_
  · show [ascii "length", ascii "path"].Pairwise (· < ·)
    decide
  · intro field member value present
    rcases List.mem_cons.mp member with here | later
    · rw [here] at present
      rw [← Option.some.inj present]
      exact .int 1 range
    · rw [List.mem_singleton.mp later] at present
      rw [← Option.some.inj present]
      exact .strings file.path

theorem Formed.files {files : List FileInfo}
    (range : ∀ file ∈ files, int64Min ≤ file.length ∧ file.length ≤ int64Max) : Formed 3 (filesValue files) := by
  refine .items ?_
  intro item member
  obtain ⟨file, inside, same⟩ := List.mem_map.mp member
  rw [← same]
  exact .file (range file inside)

end Tables

section Reading

theorem then_ok {α β : Type} {first : Except Exn α} {rest : α → Except Exn β} {value : α}
    (done : first = .ok value) : (first >>= rest) = rest value := by
  rw [done]
  rfl

theorem mapM_written {α : Type} (write : α → BencodeValue) (read : BencodeValue → Except Exn α) {items : List α}
    (back : ∀ item ∈ items, read (write item) = .ok item) : (items.map write).mapM read = .ok items := by
  induction items with
  | nil => rfl
  | cons item items ih =>
    have rest := ih (fun other member => back other (List.mem_cons_of_mem _ member))
    rw [List.map_cons, List.mapM_cons, back item (List.mem_cons_self ..), rest]
    rfl

theorem readTier_strings (texts : List Bytes) : readTier (strings texts) = .ok texts :=
  mapM_written BencodeValue.str getString (fun _ _ => rfl)

theorem readFile_value (file : FileInfo) : readFile (fileValue file) = .ok file := by
  have path : (file.path.map BencodeValue.str).mapM getString = .ok file.path :=
    mapM_written BencodeValue.str getString (fun _ _ => rfl)
  -- both keys are there, so only the path is left to read
  show ((file.path.map BencodeValue.str).mapM getString >>= fun found =>
    Except.ok (FileInfo.mk file.length found)) = _
  rw [path]
  rfl

theorem generatePieces_flatten {pieces : List Bytes} (digests : ∀ digest ∈ pieces, digest.length = 20) :
    generatePieces pieces.flatten = .ok pieces := by
  have width : pieces.flatten.length = 20 * pieces.length := by
    induction pieces with
    | nil => rfl
    | cons digest pieces ih =>
      rw [List.flatten_cons, List.length_append, digests digest (List.mem_cons_self ..),
        ih (fun other member => digests other (List.mem_cons_of_mem _ member)), List.length_cons]
      omega
  have whole : ¬ pieces.flatten.length % 20 ≠ 0 := by omega
  have count : pieces.flatten.length / 20 = pieces.length := by omega
  rw [generatePieces, if_neg whole, count]
  congr 1
  clear whole count width
  induction pieces with
  | nil => rfl
  | cons digest pieces ih =>
    have size := digests digest (List.mem_cons_self ..)
    have first : slice (digest ++ pieces.flatten) 0 20 = digest := by
      rw [slice, List.drop_zero, List.take_left' size]
    have later : ∀ i, slice (digest ++ pieces.flatten) (20 * (i + 1)) 20 = slice pieces.flatten (20 * i) 20 := by
      intro i
      rw [slice, slice, Nat.mul_succ, Nat.add_comm (20 * i) 20, ← List.drop_drop, List.drop_left' size]
    rw [List.flatten_cons, List.length_cons, List.range_succ_eq_map, List.map_cons, List.map_map, first]
    congr 1
    refine Eq.trans ?_ (ih (fun other member => digests other (List.mem_cons_of_mem _ member)))
    exact List.map_congr_left (fun i _ => later i)

variable {entries : List (Bytes × BencodeValue)} {key : String}

theorem optional_written {α : Type} {write : α → BencodeValue} {read : BencodeValue → Except Exn α} {value : Option α}
    (found : lookup entries key = value.map write) (back : ∀ item, value = some item → read (write item) = .ok item) :
    optional entries key read = .ok value := by
  rw [optional, found]
  cases value with
  | none => rfl
  | some item =>
    show some <$> read (write item) = _
    rw [back item rfl]
    rfl

theorem optional_nonEmpty {α : Type} {write : List α → BencodeValue} {read : BencodeValue → Except Exn (List α)}
    {items : List α} (found : lookup entries key = nonEmpty write items) (back : read (write items) = .ok items) :
    optional entries key read = .ok (if items = [] then none else some items) := by
  rw [optional, found, nonEmpty]
  by_cases empty : items = []
  · rw [if_pos empty, if_pos empty]
  · rw [if_neg empty, if_neg empty]
    show some <$> read (write items) = _
    rw [back]
    rfl

theorem getD_nonEmpty {α : Type} (items : List α) [Decidable (items = [])] :
    (if items = [] then none else some items).getD [] = items := by
  split
  · rename_i empty
    exact empty.symm
  · rfl

end Reading

section Writing

variable {t : TorrentFile}

theorem root_lookup (t : TorrentFile) (key : String) : lookup (entriesOf (rootTable t)) key =
    ((rootTable t).find? (fun field => decide (field.1 = ascii key))).bind Prod.snd := by
  apply lookup_entriesOf
  show [ascii "announce", ascii "announce-list", ascii "comment", ascii "created by", ascii "creation date",
    ascii "encoding", ascii "info", ascii "url-list"].Nodup
  decide

theorem info_lookup (t : TorrentFile) (key : String) : lookup (entriesOf (infoTable t)) key =
    ((infoTable t).find? (fun field => decide (field.1 = ascii key))).bind Prod.snd := by
  apply lookup_entriesOf
  show [ascii "files", ascii "length", ascii "name", ascii "piece length", ascii "pieces"].Nodup
  decide

theorem readFields_metainfo (sha1 : Bytes → Bytes) (loadable : Loadable t) {data : Bytes}
    {after : BencodeParser.State}
    (parsed : BencodeParser.parse data = .ok (metainfo t, after)) :
    readFields sha1 data = .ok { t with infoHash := sha1 (encode (infoValue t)), totalLength := 0 } := by
  have span : slice data after.infoStart (after.infoEnd - after.infoStart) = encode (infoValue t) := by
    obtain ⟨_, _, -, -, -, bytes⟩ := parse_span data (entriesOf (rootTable t)) after parsed (infoValue t)
      ((root_lookup t "info").trans rfl)
    exact bytes
  have announce : optional (entriesOf (rootTable t)) "announce" getString =
      .ok (if t.announce = [] then none else some t.announce) :=
    optional_nonEmpty (root_lookup t _) rfl
  have listed : lookup (entriesOf (rootTable t)) "announce-list" = nonEmpty tiersValue t.announceList :=
    root_lookup t _
  have tiers : optional (entriesOf (rootTable t)) "announce-list" (fun value => do (← value.getList).mapM readTier) =
      .ok (if t.announceList = [] then none else some t.announceList) :=
    optional_nonEmpty listed (mapM_written strings readTier (fun tier _ => readTier_strings tier))
  have urls : optional (entriesOf (rootTable t)) "url-list" readTier =
      .ok (if t.urlList = [] then none else some t.urlList) :=
    optional_nonEmpty (root_lookup t _) (readTier_strings t.urlList)
  have comment : optional (entriesOf (rootTable t)) "comment" getString = .ok t.comment :=
    optional_written (root_lookup t _) (fun _ _ => rfl)
  have createdBy : optional (entriesOf (rootTable t)) "created by" getString = .ok t.createdBy :=
    optional_written (root_lookup t _) (fun _ _ => rfl)
  have creationDate : optional (entriesOf (rootTable t)) "creation date" getInt = .ok t.creationDate :=
    optional_written (root_lookup t _) (fun _ _ => rfl)
  have encoding : optional (entriesOf (rootTable t)) "encoding" getString = .ok t.encoding :=
    optional_written (root_lookup t _) (fun _ _ => rfl)
  have length : optional (entriesOf (infoTable t)) "length" getInt = .ok t.length :=
    optional_written (info_lookup t _) (fun _ _ => rfl)
  have given : lookup (entriesOf (infoTable t)) "files" = t.files.map filesValue := info_lookup t _
  have files : optional (entriesOf (infoTable t)) "files" (fun value => do (← value.getList).mapM readFile) =
      .ok t.files :=
    optional_written given (fun files _ => mapM_written fileValue readFile (fun file _ => readFile_value file))
  have info : infoDict (entriesOf (rootTable t)) = .ok (entriesOf (infoTable t)) := by
    rw [infoDict, root_lookup]
    rfl
  have name : at' (entriesOf (infoTable t)) "name" = .ok (.str t.name) := by
    rw [at', info_lookup]
    rfl
  have pieceLength : at' (entriesOf (infoTable t)) "piece length" = .ok (.int t.pieceLength) := by
    rw [at', info_lookup]
    rfl
  have pieces : at' (entriesOf (infoTable t)) "pieces" = .ok (.str t.pieces.flatten) := by
    rw [at', info_lookup]
    rfl
  have kept : (if t.announceList = [] ∧ t.announce ≠ [] then [[t.announce]] else t.announceList) = t.announceList :=
    if_neg (fun both => both.2 (loadable.announces both.1))
  have digests := generatePieces_flatten loadable.geometry.digests
  rw [readFields]
  -- each line of `parse_torrent` returns what stands in the table
  refine (then_ok parsed).trans ((then_ok rfl).trans ((then_ok info).trans ((then_ok announce).trans
    ((then_ok tiers).trans ((then_ok urls).trans ((then_ok length).trans ((then_ok files).trans
    ((then_ok comment).trans ((then_ok createdBy).trans ((then_ok creationDate).trans ((then_ok encoding).trans
    ((then_ok name).trans ((then_ok rfl).trans ((then_ok pieceLength).trans ((then_ok rfl).trans
    ((then_ok pieces).trans ((then_ok rfl).trans ((then_ok digests).trans ?_))))))))))))))))))
  dsimp only
  rw [getD_nonEmpty, getD_nonEmpty, getD_nonEmpty, kept, BencodeParser.getInfoRange]
  dsimp only
  rw [span]

theorem Formed.info (loadable : Loadable t) : Formed 4 (infoValue t) := by
  have geometry := loadable.geometry
  have cap := geometry.pieceLength_high
  have positive := geometry.pieceLength_low
  refine .entries ?_ ?_
  · show [ascii "files", ascii "length", ascii "name", ascii "piece length", ascii "pieces"].Pairwise (· < ·)
    decide
  · simp only [infoTable, List.forall_mem_cons, List.not_mem_nil, false_implies, implies_true, and_true,
      Option.map_eq_some_iff, Option.some.injEq, forall_exists_index, and_imp]
    refine ⟨?_, ?_, ?_, ?_, ?_⟩
    · intro value files several same
      rw [← same]
      refine .files (fun file member => ?_)
      have low := geometry.files_low files several file member
      have high := geometry.files_high files several file member
      rw [kLimit] at high
      rw [int64Min, int64Max]
      omega
    · intro value length single same
      rw [← same]
      have low := geometry.single_low length single
      have high := geometry.single_high length single
      rw [kLimit] at high
      refine .int 3 ?_
      rw [int64Min, int64Max]
      omega
    · intro value same
      rw [← same]
      exact .str 3 _
    · intro value same
      rw [← same]
      refine .int 3 ?_
      rw [kPieceLengthCap] at cap
      rw [int64Min, int64Max]
      omega
    · intro value same
      rw [← same]
      exact .str 3 _

theorem metainfo_canonical (loadable : Loadable t) : Canonical (metainfo t) := by
  have formed : Formed 5 (metainfo t) := by
    refine .entries ?_ ?_
    · show [ascii "announce", ascii "announce-list", ascii "comment", ascii "created by", ascii "creation date",
        ascii "encoding", ascii "info", ascii "url-list"].Pairwise (· < ·)
      decide
    · have text : ∀ (given : Option Bytes) value, given.map BencodeValue.str = some value → Formed 4 value := by
        intro given value present
        obtain ⟨text, -, same⟩ := Option.map_eq_some_iff.mp present
        rw [← same]
        exact .str 4 text
      have list : ∀ {α : Type} (write : List α → BencodeValue) (items : List α), Formed 4 (write items) →
          ∀ value, nonEmpty write items = some value → Formed 4 value := by
        intro α write items formed value present
        unfold nonEmpty at present
        split at present
        · cases present
        · rw [← Option.some.inj present]
          exact formed
      simp only [rootTable, List.forall_mem_cons, List.not_mem_nil, false_implies, implies_true, and_true, and_true]
      refine ⟨list _ _ (.str 4 _), list _ _ ((Formed.tiers _).deeper (by decide)), text _, text _, ?_, text _, ?_,
        list _ _ ((Formed.strings _).deeper (by decide))⟩
      · intro value present
        obtain ⟨date, dated, same⟩ := Option.map_eq_some_iff.mp present
        rw [← same]
        exact .int 4 (loadable.dated date dated)
      · intro value present
        rw [← Option.some.inj present]
        exact .info loadable
  exact ⟨formed.1, Nat.le_trans formed.2 (by decide)⟩

end Writing

section Checking

variable {t : TorrentFile} (geometry : Geometry t)

theorem forM_all {α : Type} {items : List α} {check : α → Except Exn Unit}
    (passes : ∀ item ∈ items, check item = .ok ()) : items.forM check = .ok () := by
  induction items with
  | nil => rfl
  | cons item items ih =>
    have rest := ih (fun other member => passes other (List.mem_cons_of_mem _ member))
    show (check item >>= fun _ => items.forM check) = .ok ()
    rw [then_ok (passes item (List.mem_cons_self ..))]
    exact rest

theorem sumLengths_passes {files : List FileInfo} {total : Nat}
    (valid : ∀ file ∈ files, 0 ≤ file.length ∧ file.length ≤ 2 ^ 63 - 1)
    (fits : total + (files.map (fun file => file.length.toNat)).sum ≤ kLimit) :
    sumLengths files total = .ok (total + (files.map (fun file => file.length.toNat)).sum) := by
  induction files generalizing total with
  | nil => rfl
  | cons file files ih =>
    obtain ⟨low, high⟩ := valid file (List.mem_cons_self ..)
    rw [List.map_cons, List.sum_cons, ← Nat.add_assoc] at fits ⊢
    have size : toU64 file.length = file.length.toNat := toU64_nonnegative file.length low (by omega)
    have small : total + file.length.toNat ≤ kLimit := Nat.le_trans (Nat.le_add_right _ _) fits
    have swapped : addU64 (toU64 file.length) total = total + file.length.toNat := by
      rw [size, addU64, Nat.add_comm, Nat.mod_eq_of_lt]
      rw [kLimit] at small
      omega
    have added : addU64 total (toU64 file.length) = total + file.length.toNat := by
      rw [addU64, Nat.add_comm]
      exact swapped
    rw [sumLengths, swapped, if_neg (Nat.not_lt.mpr small), added]
    exact ih (fun other member => valid other (List.mem_cons_of_mem _ member)) fits

include geometry

theorem validateLayout_passes : validateLayout t = .ok () := by
  have exclusive : failIf (t.length.isSome = t.files.isSome)
    "info needs exactly one of 'length' or 'files'" = .ok () :=
    if_neg geometry.one_layout
  have nonnegative : failIf (∃ length ∈ t.length, length < 0) "negative length" = .ok () := by
    refine if_neg ?_
    rintro ⟨length, present, negative⟩
    have low := geometry.single_low length present
    omega
  rw [validateLayout]
  refine (then_ok exclusive).trans ((then_ok nonnegative).trans ((then_ok geometry.name_safe).trans ?_))
  cases several : t.files with
  | none => rfl
  | some files =>
    have each : files.forM checkFile = .ok () := by
      refine forM_all (fun file member => ?_)
      have low := geometry.files_low files several file member
      obtain ⟨nonempty, safe⟩ := geometry.paths_safe files several file member
      rw [checkFile, if_neg (by omega), if_neg nonempty]
      exact forM_all safe
    exact (then_ok each).trans ((sorted_check _).mpr (geometry.paths_apart files several))

theorem calculateTotalLength_exact : calculateTotalLength t = .ok t.totalLength := by
  have total := geometry.total_sum
  have limit := geometry.total_high
  have exclusive := geometry.one_layout
  unfold layoutLengths at total
  unfold calculateTotalLength
  cases several : t.files with
  | none =>
    cases single : t.length with
    | none => simp [several, single] at exclusive
    | some length =>
      have low := geometry.single_low length single
      have high := geometry.single_high length single
      rw [several, single] at total
      simp only [Option.getD_some, List.sum_cons, List.sum_nil, Nat.add_zero] at total
      rw [kLimit] at high
      show Except.ok (toU64 length) = _
      rw [toU64_nonnegative length low (by omega), total]
  | some files =>
    cases single : t.length with
    | some length => simp [several, single] at exclusive
    | none =>
      rw [several] at total
      rw [total] at limit
      have summed := sumLengths_passes (fun file member => ?_) (show 0 + (files.map (fun file =>
        file.length.toNat)).sum ≤ kLimit by rw [Nat.zero_add]; exact limit)
      · rw [total]
        rw [Nat.zero_add] at summed
        exact summed
      · have low := geometry.files_low files several file member
        have high := geometry.files_high files several file member
        rw [kLimit] at high
        exact ⟨low, by omega⟩

/-- The checks of `parse_torrent` pass, and restore the total. -/
theorem checkFields_passes (infoHash : Bytes) :
    checkFields { t with infoHash := infoHash, totalLength := 0 } = .ok { t with infoHash := infoHash } := by
  have range : failIf (t.pieceLength ≤ 0 ∨ kPieceLengthCap < t.pieceLength) "piece length out of range" = .ok () := by
    have low := geometry.pieceLength_low
    have high := geometry.pieceLength_high
    exact if_neg (by omega)
  have count : failIf (t.pieces.length ≠ t.totalLength / toU64 t.pieceLength +
      (if t.totalLength % toU64 t.pieceLength ≠ 0 then 1 else 0))
        "piece count doesn't match total length" = .ok () := by
    rw [geometry.pieceLength_u64]
    exact if_neg (not_not.mpr geometry.count)
  rw [checkFields]
  exact (then_ok range).trans ((then_ok (validateLayout_passes geometry)).trans
    ((then_ok (calculateTotalLength_exact geometry)).trans ((then_ok count).trans rfl)))

end Checking

section Loading

variable {sha1 : Bytes → Bytes} {data : Bytes} {t : TorrentFile}

theorem readFields_header (read : readFields sha1 data = .ok t) :
    (t.announceList = [] → t.announce = []) ∧
      ∀ date, t.creationDate = some date → int64Min ≤ date ∧ date ≤ int64Max := by
  obtain ⟨⟨root, parser⟩, parsed, rest⟩ := bind_ok read
  obtain ⟨⟨_, _⟩, inner, checked⟩ := bind_ok parsed
  have formed : WellFormed root := by
    dsimp only at checked
    split at checked
    · cases checked
    cases checked
    exact ((BencodeParser.grammar_sound data _).1 BencodeParser.start root parser
      (by decide) (fun _ _ => trivial) inner).1
  obtain ⟨dict, dict_read, rest⟩ := bind_ok rest
  obtain ⟨info, _, rest⟩ := bind_ok rest
  obtain ⟨announce, _, rest⟩ := bind_ok rest
  obtain ⟨tiers, _, rest⟩ := bind_ok rest
  iterate 5 obtain ⟨_, _, rest⟩ := bind_ok rest
  obtain ⟨date, date_read, rest⟩ := bind_ok rest
  iterate 8 obtain ⟨_, _, rest⟩ := bind_ok rest
  cases rest
  constructor
  · intro none_listed
    dsimp only at none_listed ⊢
    split at none_listed
    · cases none_listed
    · rename_i kept
      by_contra given
      exact kept ⟨none_listed, given⟩
  · intro number present
    dsimp only at present
    subst present
    obtain ⟨value, located, is_int⟩ := optional_some dict "creation date" _ number date_read
    exact getInt_range value number (lookup_formed _ _ _ (rootDict_formed root dict formed dict_read) located) is_int

theorem accepted_loadable (accepted : parseTorrent sha1 data = .ok t) : Loadable t := by
  obtain ⟨fields, read, same⟩ := parseTorrent_fields accepted
  obtain ⟨announces, dated⟩ := readFields_header read
  exact {
    geometry := accepted_geometry sha1 data t accepted
    announces := by
      rw [same]
      exact announces
    dated := by
      rw [same]
      exact dated }

/-- Only well-formed torrents are loaded. Each of them can be written, and what is written loads as the same torrent,
with the hash of the `info` value in the written file. -/
theorem metainfo_round_trip (sha1 : Bytes → Bytes) (t : TorrentFile) :
    (∀ data, parseTorrent sha1 data = .ok t → Loadable t) ∧
      (Loadable t → (encode (metainfo t)).length < 2 ^ 64 →
        parseTorrent sha1 (encode (metainfo t)) = .ok { t with infoHash := sha1 (encode (infoValue t)) }) := by
  constructor
  · intro data accepted
    exact accepted_loadable accepted
  · intro loadable small
    obtain ⟨after, parsed⟩ := (BencodeParser.parse_accepts_iff _ (metainfo t) small).mpr
      ⟨metainfo_canonical loadable, rfl⟩
    rw [parseTorrent, then_ok (readFields_metainfo sha1 loadable parsed)]
    exact checkFields_passes loadable.geometry _

end Loading

def twoFiles : TorrentFile where
  announce := ascii "udp://a:1"
  announceList := [[ascii "udp://a:1"], []]
  urlList := []
  comment := none
  createdBy := some (ascii "me")
  creationDate := some (-1)
  encoding := none
  name := ascii "d"
  pieceLength := 2
  pieces := [List.replicate 20 1, List.replicate 20 2]
  infoHash := []
  length := none
  files := some [⟨1, [ascii "x"]⟩, ⟨2, [ascii "y", ascii "z"]⟩]
  totalLength := 3

theorem twoFiles_loadable : Loadable twoFiles where
  geometry := {
    pieceLength_low := by decide
    pieceLength_high := by decide
    total_high := by decide
    total_sum := rfl
    count := rfl
    digests := by decide
    one_layout := by decide
    single_low := by
      intro length single
      cases single
    files_low := by
      intro files several
      rw [← Option.some.inj several]
      decide
    name_safe := rfl
    paths_safe := by
      intro files several
      rw [← Option.some.inj several]
      decide
    paths_apart := by
      intro files several
      rw [← Option.some.inj several]
      exact (sorted_check _).mp rfl }
  announces := by decide
  dated := by
    intro date given
    rw [← Option.some.inj given]
    decide

theorem metainfo_round_trip_two_files :
    parseTorrent (fun _ => List.replicate 20 7) (encode (metainfo twoFiles)) =
      .ok { twoFiles with infoHash := List.replicate 20 7 } :=
  (metainfo_round_trip (fun _ => List.replicate 20 7) twoFiles).2 twoFiles_loadable (by decide +kernel)

end TorrentPeer.Torrent
