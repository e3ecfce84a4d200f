import TorrentPeer.Runtime.DiskArray

/-! The constructor of `DiskManager` on an accepted torrent: it succeeds, lays the
files end to end, and whatever they held becomes the initial array. -/

namespace TorrentPeer.DiskManager

open Splice Torrent

def layoutPairs (t : TorrentFile) (downloadDir : Path) : List (Path × Nat) :=
  match t.files with
  | some files => files.map (fun f => (downloadDir ++ [t.name] ++ f.path, f.length.toNat))
  | none => [(downloadDir ++ [t.name], (t.length.getD 0).toNat)]

def entriesFrom : List (Path × Nat) → Nat → List FileEntry
  | [], _ => []
  | (path, length) :: rest, cursor => ⟨path, cursor, length⟩ :: entriesFrom rest (cursor + length)

def layoutEntries (t : TorrentFile) (downloadDir : Path) : List FileEntry :=
  entriesFrom (layoutPairs t downloadDir) 0

def Plain (c : Bytes) : Prop :=
  c ≠ [] ∧ c ≠ ascii "." ∧ c ≠ ascii ".." ∧ (47 : UInt8) ∉ c ∧ (92 : UInt8) ∉ c ∧ (0 : UInt8) ∉ c

theorem checkComponent_plain {c : Bytes} (passed : checkComponent c = .ok ()) : Plain c := by
  unfold checkComponent at passed
  split at passed
  · cases passed
  · rename_i harmless
    rw [Plain]
    simpa only [not_or, ne_eq] using harmless

theorem safeJoin_ok (root : Path) (components : List Bytes)
    (safe : ∀ c ∈ components, checkComponent c = .ok ()) :
    safeJoin root components = .ok (root ++ components) := by
  induction components generalizing root with
  | nil => rw [safeJoin, List.append_nil]
  | cons c rest ih =>
    obtain ⟨filled, here, parent, slash, backslash, -⟩ := checkComponent_plain (safe c (by simp))
    have accepted : ¬ (c = [] ∨ c = ascii "." ∨ c = ascii ".." ∨ (47 : UInt8) ∈ c ∨ (92 : UInt8) ∈ c) := by
      simp only [not_or]
      exact ⟨filled, here, parent, slash, backslash⟩
    rw [safeJoin, if_neg accepted, ih (root ++ [c]) (fun d member => safe d (by simp [member])),
      List.append_assoc, List.singleton_append]

theorem mapM_total {α β : Type} (items : List α) (read : α → Except Exn β) (value : α → β)
    (each : ∀ item ∈ items, read item = .ok (value item)) :
    items.mapM read = .ok (items.map value) := by
  induction items with
  | nil => rfl
  | cons head tail ih =>
    rw [List.mapM_cons, each head (by simp), ih (fun item member => each item (by simp [member]))]
    rfl

theorem layout_ok {t : TorrentFile} (geometry : Geometry t)
    (downloadDir : Path) : layout t downloadDir = .ok (layoutPairs t downloadDir) := by
  have root : safeJoin downloadDir [t.name] = .ok (downloadDir ++ [t.name]) :=
    safeJoin_ok downloadDir [t.name] (by simpa using geometry.name_safe)
  unfold layout layoutPairs isMultifile
  rw [root]
  cases several : t.files with
  | some files =>
    simp only [Option.isSome_some, if_true, Option.getD_some]
    apply mapM_total
    intro f member
    have low := geometry.files_low files several f member
    have high := geometry.files_high files several f member
    rw [kLimit] at high
    have path := safeJoin_ok (downloadDir ++ [t.name]) f.path
      (geometry.paths_safe files several f member).2
    rw [failIf, if_neg (by omega), toU64_nonnegative f.length low (by omega)]
    simp only [bind, Except.bind, path]
    rfl
  | none =>
    have given : t.length.isSome = true := by
      have exclusive := geometry.one_layout
      rw [several] at exclusive
      exact Option.isSome_iff_ne_none.mpr (by simpa using exclusive)
    obtain ⟨length, present⟩ := Option.isSome_iff_exists.mp given
    have low := geometry.single_low length present
    have high := geometry.single_high length present
    rw [kLimit] at high
    rw [present, Option.getD_some, toU64_nonnegative length low (by omega)]
    rfl

theorem layoutPairs_sum (t : TorrentFile) (downloadDir : Path) :
    ((layoutPairs t downloadDir).map Prod.snd).sum = (layoutLengths t).sum := by
  unfold layoutPairs layoutLengths
  cases t.files with
  | some files => simp only [List.map_map, Function.comp_def]
  | none => rfl

theorem layoutPairs_apart {t : TorrentFile} (geometry : Geometry t) (downloadDir : Path) :
    PathsApart ((layoutPairs t downloadDir).map Prod.fst) := by
  unfold layoutPairs
  cases several : t.files with
  | none => exact List.pairwise_singleton _ _
  | some files =>
    have apart := geometry.paths_apart files several
    rw [PathsApart, List.pairwise_map] at apart ⊢
    rw [List.pairwise_map]
    refine apart.imp ?_
    intro f g separate
    exact ⟨fun extension => separate.1 ((List.prefix_append_right_inj _).mp extension),
      fun extension => separate.2 ((List.prefix_append_right_inj _).mp extension)⟩

theorem layoutPairs_distinct {t : TorrentFile} (geometry : Geometry t) (downloadDir : Path) :
    ((layoutPairs t downloadDir).map Prod.fst).Nodup := by
  refine (layoutPairs_apart geometry downloadDir).imp ?_
  intro first second separate same
  exact separate.1 (same ▸ List.prefix_refl first)

theorem entriesFrom_paths (pairs : List (Path × Nat)) (cursor : Nat) :
    (entriesFrom pairs cursor).map FileEntry.path = pairs.map Prod.fst := by
  induction pairs generalizing cursor with
  | nil => rfl
  | cons head tail ih => rw [entriesFrom, List.map_cons, List.map_cons, ih]

theorem entriesFrom_tiled (pairs : List (Path × Nat)) (cursor : Nat) :
    Tiled ((entriesFrom pairs cursor).filter (fun e => decide (0 < e.length))) cursor
      (cursor + (pairs.map Prod.snd).sum) := by
  induction pairs generalizing cursor with
  | nil => exact (Nat.add_zero cursor).symm
  | cons head tail ih =>
    obtain ⟨path, length⟩ := head
    have later := ih (cursor + length)
    rw [Nat.add_assoc] at later
    rw [entriesFrom, List.filter_cons, List.map_cons, List.sum_cons]
    by_cases positive : 0 < length
    · rw [if_pos (decide_eq_true positive)]
      exact ⟨rfl, positive, later⟩
    · have empty : length = 0 := by omega
      subst empty
      exact later

theorem extend_length (content : Bytes) (length : Nat) :
    (extend content length).length = max content.length length := by
  rw [extend, List.length_append, List.length_replicate]
  omega

theorem reserve_length (kernel : Kernel) (path : Path) (length : Nat) (content : Bytes) :
    length ≤ (reserve kernel path length content).length := by
  unfold reserve
  split
  · rw [extend_length]
    omega
  · rw [ftruncate, List.length_take, extend_length]
    omega

theorem openFiles_ok (kernel : Kernel) (pairs : List (Path × Nat)) (cursor : Nat) (store : Store)
    (small : cursor + (pairs.map Prod.snd).sum < 2 ^ 64) (distinct : (pairs.map Prod.fst).Nodup) :
    ∃ opened, openFiles kernel pairs cursor store =
        ((entriesFrom pairs cursor).filter (fun e => decide (0 < e.length)),
          cursor + (pairs.map Prod.snd).sum, opened) ∧
      (∀ path ∉ pairs.map Prod.fst, opened.content path = store.content path) ∧
      ∀ pair ∈ pairs, pair.2 ≤ (opened.content pair.1).length := by
  induction pairs generalizing cursor store with
  | nil => exact ⟨store, rfl, fun _ _ => rfl, by simp⟩
  | cons head tail ih =>
    obtain ⟨path, length⟩ := head
    rw [List.map_cons, List.sum_cons] at small
    rw [List.map_cons, List.nodup_cons] at distinct
    have exact_cursor : addU64 cursor length = cursor + length := by
      rw [addU64, Nat.mod_eq_of_lt (by omega)]
    obtain ⟨opened, result, others, backed⟩ := ih (cursor + length) { store with
      content := Function.update store.content path
        (reserve kernel path length (store.content path)) } (by omega) distinct.2
    refine ⟨opened, ?_, ?_, ?_⟩
    · simp only [openFiles, exact_cursor, result, entriesFrom, List.filter_cons, List.map_cons,
        List.sum_cons, decide_eq_true_eq, Nat.add_assoc]
    · intro other outside
      rw [List.map_cons, List.mem_cons, not_or] at outside
      rw [others other outside.2]
      exact Function.update_of_ne outside.1 _ _
    · intro pair member
      rcases List.mem_cons.mp member with rfl | later
      · rw [others path distinct.1]
        simp only [Function.update_self]
        exact reserve_length kernel path length (store.content path)
      · exact backed pair later

def image (store : Store) (pairs : List (Path × Nat)) : Bytes :=
  (pairs.map (fun pair => slice (store.content pair.1) 0 pair.2)).flatten

theorem image_length (store : Store) (pairs : List (Path × Nat))
    (backed : ∀ pair ∈ pairs, pair.2 ≤ (store.content pair.1).length) :
    (image store pairs).length = (pairs.map Prod.snd).sum := by
  induction pairs with
  | nil => rfl
  | cons head tail ih =>
    have enough := backed head (by simp)
    have later := ih (fun pair member => backed pair (by simp [member]))
    rw [image] at later ⊢
    rw [List.map_cons, List.flatten_cons, List.length_append, slice_length _ _ _ (by omega), later,
      List.map_cons, List.sum_cons]

theorem slice_append_left {α : Type} (before middle after : List α) :
    slice (before ++ (middle ++ after)) before.length middle.length = middle := by
  simp [slice]

theorem image_holds (store : Store) (pairs : List (Path × Nat)) (before : Bytes)
    (backed : ∀ pair ∈ pairs, pair.2 ≤ (store.content pair.1).length) :
    Holds (entriesFrom pairs before.length) store (before ++ image store pairs) := by
  induction pairs generalizing before with
  | nil => intro f member; cases member
  | cons head tail ih =>
    obtain ⟨path, length⟩ := head
    have enough : length ≤ (store.content path).length := backed (path, length) (by simp)
    have width : (slice (store.content path) 0 length).length = length :=
      slice_length _ _ _ (by omega)
    have unfolded : image store ((path, length) :: tail) =
        slice (store.content path) 0 length ++ image store tail := rfl
    intro f member
    rw [unfolded]
    rcases List.mem_cons.mp member with rfl | later
    · have placed := slice_append_left before (slice (store.content path) 0 length)
        (image store tail)
      rw [width] at placed
      exact placed.symm
    · have tail_holds := ih (before ++ slice (store.content path) 0 length)
        (fun pair inside => backed pair (by simp [inside]))
      rw [List.length_append, width, List.append_assoc] at tail_holds
      exact tail_holds f later

theorem holds_nonempty (files : List FileEntry) (store : Store) (array : Bytes) :
    Holds (files.filter (fun e => decide (0 < e.length))) store array ↔ Holds files store array := by
  constructor
  · intro holds f member
    by_cases positive : 0 < f.length
    · exact holds f (List.mem_filter.mpr ⟨member, decide_eq_true positive⟩)
    · have empty : f.length = 0 := by omega
      rw [empty, slice_zero, slice_zero]
  · intro holds f member
    exact holds f (List.mem_filter.mp member).1

theorem create_ok (kernel : Kernel) {t : TorrentFile} (geometry : Geometry t)
    (downloadDir : Path) (store : Store) :
    ∃ disk opened array, create kernel t downloadDir store = .ok disk opened ∧ Mounted disk t ∧
      disk.files = (layoutEntries t downloadDir).filter (fun e => decide (0 < e.length)) ∧
      array.length = t.totalLength ∧ Holds disk.files opened array := by
  have limit := geometry.total_high
  rw [kLimit] at limit
  have positive := geometry.pieceLength_positive
  have total : ((layoutPairs t downloadDir).map Prod.snd).sum = t.totalLength := by
    rw [layoutPairs_sum, geometry.total_sum]
  have distinct := layoutPairs_distinct geometry downloadDir
  obtain ⟨opened, result, _, backed⟩ := openFiles_ok kernel (layoutPairs t downloadDir) 0 store
    (by omega) distinct
  rw [Nat.zero_add, total] at result
  refine ⟨{
    files := (layoutEntries t downloadDir).filter (fun e => decide (0 < e.length))
    torrent := t
    pieceLength := toU64 t.pieceLength
    totalLength := t.totalLength
    pieceCount := t.pieces.length % 2 ^ 32 }, opened, image opened (layoutPairs t downloadDir),
    ?_, ?_, rfl, ?_, ?_⟩
  · have nonzero : ¬ toU64 t.pieceLength = 0 := by
      rw [geometry.pieceLength_u64]
      omega
    have summed : ¬ t.totalLength ≠ t.totalLength := fun different => different rfl
    simp only [create, if_neg nonzero, layout_ok geometry, result, if_neg summed]
    rfl
  · refine ⟨rfl, geometry.pieceLength_u64, rfl, rfl, ?_, ?_⟩
    · have tiled := entriesFrom_tiled (layoutPairs t downloadDir) 0
      rw [Nat.zero_add, total] at tiled
      exact tiled
    · have all : ((layoutEntries t downloadDir).map FileEntry.path).Nodup := by
        rw [layoutEntries, entriesFrom_paths]
        exact distinct
      exact (List.filter_sublist.map FileEntry.path).nodup all
  · rw [image_length opened _ backed, total]
  · exact (holds_nonempty _ opened _).mpr (image_holds opened (layoutPairs t downloadDir) [] backed)

section Paths

def Conflict (files : List FileInfo) : Prop :=
  ∃ (i j : Nat) (first second : FileInfo), i ≠ j ∧ files[i]? = some first ∧ files[j]? = some second ∧
    (first.path = second.path ∨ first.path ≠ second.path ∧ first.path <+: second.path)

theorem conflict_iff (files : List FileInfo) : Conflict files ↔ ¬ PathsApart (files.map FileInfo.path) := by
  rw [PathsApart, List.pairwise_map]
  constructor
  · rintro ⟨i, j, first, second, different, left, right, clash⟩ apart
    have extension : first.path <+: second.path := by
      rcases clash with same | ⟨-, extension⟩
      · exact same ▸ List.prefix_refl _
      · exact extension
    obtain ⟨low, rfl⟩ := List.getElem?_eq_some_iff.mp left
    obtain ⟨high, rfl⟩ := List.getElem?_eq_some_iff.mp right
    have each := List.pairwise_iff_getElem.mp apart
    rcases Nat.lt_or_gt_of_ne different with below | above
    · exact (each i j low high below).1 extension
    · exact (each j i high low above).2 extension
  · intro clash
    by_contra free
    have never : ∀ i j (low : i < files.length) (high : j < files.length), i ≠ j →
        ¬ files[i].path <+: files[j].path := by
      intro i j low high different extension
      apply free
      refine ⟨i, j, files[i], files[j], different, List.getElem?_eq_getElem low, List.getElem?_eq_getElem high, ?_⟩
      by_cases same : files[i].path = files[j].path
      · exact .inl same
      · exact .inr ⟨same, extension⟩
    apply clash
    rw [List.pairwise_iff_getElem]
    intro i j low high below
    exact ⟨never i j low high (Nat.ne_of_lt below), never j i high low (Nat.ne_of_gt below)⟩

theorem layoutPairs_plain {t : TorrentFile} (geometry : Geometry t) (downloadDir : Path) :
    ∀ pair ∈ layoutPairs t downloadDir, ∃ components, pair.1 = downloadDir ++ t.name :: components ∧
      ∀ c ∈ t.name :: components, Plain c := by
  intro pair member
  have name := checkComponent_plain geometry.name_safe
  unfold layoutPairs at member
  cases several : t.files with
  | none =>
    rw [several] at member
    cases List.mem_singleton.mp member
    exact ⟨[], rfl, by simpa using name⟩
  | some files =>
    rw [several] at member
    obtain ⟨f, inside, rfl⟩ := List.mem_map.mp member
    refine ⟨f.path, List.append_assoc .., ?_⟩
    intro c listed
    rcases List.mem_cons.mp listed with rfl | below
    · exact name
    · exact checkComponent_plain ((geometry.paths_safe files several f inside).2 c below)

theorem layoutPairs_paths (t : TorrentFile) (downloadDir : Path) :
    (t.files = none → (layoutPairs t downloadDir).map Prod.fst = [downloadDir ++ [t.name]]) ∧
      ∀ files ∈ t.files, (layoutPairs t downloadDir).map Prod.fst =
        files.map (fun f => downloadDir ++ t.name :: f.path) := by
  unfold layoutPairs
  constructor
  · intro single
    rw [single, List.map_singleton]
  · intro files several
    rw [several, List.map_map]
    exact List.map_congr_left (fun f _ => List.append_assoc ..)

/-- The check on the sorted paths fails exactly when two entries conflict. For an accepted torrent
neither validator objects, and the files get separate places below the download directory, each under
the torrent's name and its own path. -/
theorem layout_checked_exactly :
    (∀ files : List FileInfo,
      (∃ problem, checkNeighbours ((files.map FileInfo.path).insertionSort (· ≤ ·)) = .error problem) ↔
        Conflict files) ∧
    ∀ (sha1 : Bytes → Bytes) (data : Bytes) (t : TorrentFile), parseTorrent sha1 data = .ok t →
      (∀ root, safeJoin root [t.name] = .ok (root ++ [t.name])) ∧
      (∀ files ∈ t.files, ∀ f ∈ files, ∀ root, safeJoin root f.path = .ok (root ++ f.path)) ∧
      ∀ downloadDir, ∃ pairs, layout t downloadDir = .ok pairs ∧
        (t.files = none → pairs.map Prod.fst = [downloadDir ++ [t.name]]) ∧
        (∀ files ∈ t.files, pairs.map Prod.fst = files.map (fun f => downloadDir ++ t.name :: f.path)) ∧
        (pairs.map Prod.fst).Nodup ∧ PathsApart (pairs.map Prod.fst) ∧
        ∀ pair ∈ pairs, ∃ components, pair.1 = downloadDir ++ t.name :: components ∧
          ∀ c ∈ t.name :: components, Plain c := by
  constructor
  · intro files
    rw [conflict_iff, ← sorted_check]
    constructor
    · rintro ⟨problem, failed⟩ passed
      rw [failed] at passed
      cases passed
    · intro refused
      cases outcome : checkNeighbours ((files.map FileInfo.path).insertionSort (· ≤ ·)) with
      | error problem => exact ⟨problem, rfl⟩
      | ok passed => exact absurd outcome refused
  · intro sha1 data t accepted
    have geometry := accepted_geometry sha1 data t accepted
    refine ⟨?_, ?_, ?_⟩
    · intro root
      exact safeJoin_ok root [t.name] (by simpa using geometry.name_safe)
    · intro files several f member root
      exact safeJoin_ok root f.path (geometry.paths_safe files several f member).2
    · intro downloadDir
      obtain ⟨single, several⟩ := layoutPairs_paths t downloadDir
      exact ⟨layoutPairs t downloadDir, layout_ok geometry downloadDir, single, several,
        layoutPairs_distinct geometry downloadDir, layoutPairs_apart geometry downloadDir,
        layoutPairs_plain geometry downloadDir⟩

def nestedPaths : List FileInfo :=
  [⟨1, [ascii "b"]⟩, ⟨1, [ascii "a"]⟩, ⟨1, [ascii "b", ascii "c"]⟩]

theorem layout_checked_exactly_nested :
    (∃ problem, checkNeighbours ((nestedPaths.map FileInfo.path).insertionSort (· ≤ ·)) = .error problem) ∧
      ∃ t, parseTorrent (fun _ => []) (oneFile "3") = .ok t ∧
        ∀ downloadDir, ∃ pairs, layout t downloadDir = .ok pairs ∧ (pairs.map Prod.fst).Nodup := by
  constructor
  · apply (layout_checked_exactly.1 nestedPaths).mpr
    exact ⟨0, 2, _, _, by decide, rfl, rfl, .inr (by decide)⟩
  · have three : (parseTorrent (fun _ => []) (oneFile "3")).toOption.isSome = true := by decide +kernel
    obtain ⟨t, accepted⟩ := Option.isSome_iff_exists.mp three
    have outcome := toOption_ok accepted
    refine ⟨t, outcome, ?_⟩
    intro downloadDir
    obtain ⟨pairs, built, -, -, distinct, -⟩ := (layout_checked_exactly.2 _ _ t outcome).2.2 downloadDir
    exact ⟨pairs, built, distinct⟩

end Paths

end TorrentPeer.DiskManager
