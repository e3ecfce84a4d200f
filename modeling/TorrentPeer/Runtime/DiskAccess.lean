import TorrentPeer.Runtime.Disk
import TorrentPeer.Metainfo.Geometry
import TorrentPeer.Lib.Outcome

/-! The access loops of `DiskManager`: short counts add up to whole transfers, and
the slices of a range tile it. -/

namespace TorrentPeer.DiskManager

open Splice Torrent Outcome

def Within (path : Path) (low high : Nat) (store next : Store) : Prop :=
  ∃ extra, next.accesses = store.accesses ++ extra ∧
    ∀ access ∈ extra, access.path = path ∧ low ≤ access.offset ∧ access.offset + access.count ≤ high

theorem Within.refl (path : Path) (low high : Nat) (store : Store) :
    Within path low high store store :=
  ⟨[], by simp, by simp⟩

theorem Within.first (path : Path) (low middle high : Nat) (store next final : Store)
    (one : next.accesses = store.accesses ++ [⟨path, low, middle - low⟩])
    (ordered : low ≤ middle) (inside : middle ≤ high) (later : Within path middle high next final) :
    Within path low high store final := by
  obtain ⟨extra, appended, each⟩ := later
  refine ⟨⟨path, low, middle - low⟩ :: extra, ?_, ?_⟩
  · rw [appended, one, List.append_assoc, List.singleton_append]
  · intro access member
    rcases List.mem_cons.mp member with rfl | tail
    · exact ⟨rfl, Nat.le_refl low, by simp only; omega⟩
    · obtain ⟨same, above, below⟩ := each access tail
      exact ⟨same, by omega, below⟩

theorem Within.last {path : Path} {low high offset count : Nat} {store next final : Store}
    (earlier : Within path low high store next)
    (one : final.accesses = next.accesses ++ [⟨path, offset, count⟩]) (above : low ≤ offset)
    (below : offset + count ≤ high) : Within path low high store final := by
  obtain ⟨extra, appended, each⟩ := earlier
  refine ⟨extra ++ [⟨path, offset, count⟩], by rw [one, appended, List.append_assoc], ?_⟩
  intro access member
  rcases List.mem_append.mp member with old | new
  · exact each access old
  · cases List.mem_singleton.mp new
    exact ⟨rfl, above, below⟩

theorem extend_enough (content : Bytes) (length : Nat) (enough : length ≤ content.length) :
    extend content length = content := by
  have none_missing : length - content.length = 0 := by omega
  rw [extend, none_missing, List.replicate_zero, List.append_nil]

/-- The `while` rule of the write loop: an assertion on the bytes passed so far that every call
carries over holds at the end with all of them passed. -/
theorem pwriteLoop_rule {σ : Type} (holds : Nat → σ → Prop) (call : Bytes → Nat → DiskM σ Nat)
    (buf : Bytes) (offset : Nat) (state : σ)
    (step : ∀ done state, holds done state → done < buf.length →
      ∃ n next, call (buf.drop done) (offset + done) state = .ok n next ∧ 0 < n ∧
        done + n ≤ buf.length ∧ holds (done + n) next)
    (initially : holds 0 state) :
    ∃ final, pwriteLoop call buf.length buf offset state = .ok () final ∧ holds buf.length final := by
  have rounds : ∀ fuel done state, buf.length - done ≤ fuel → done ≤ buf.length → holds done state →
      ∃ final, pwriteLoop call fuel (buf.drop done) (offset + done) state = .ok () final ∧
        holds buf.length final := by
    intro fuel
    induction fuel with
    | zero =>
      intro done state enough reached now
      have all : done = buf.length := by omega
      subst all
      rw [List.drop_length]
      exact ⟨state, rfl, now⟩
    | succ fuel ih =>
      intro done state enough reached now
      by_cases more : done < buf.length
      · obtain ⟨n, next, performed, moved, fits, kept⟩ := step done state now more
        obtain ⟨final, finished, conclusion⟩ := ih (done + n) next (by omega) fits kept
        refine ⟨final, ?_, conclusion⟩
        obtain ⟨byte, bytes, rest⟩ := List.exists_cons_of_length_pos
          (show 0 < (buf.drop done).length by rw [List.length_drop]; omega)
        have unfolded : pwriteLoop call (fuel + 1) (buf.drop done) (offset + done) =
            (call (buf.drop done) (offset + done) >>= fun n =>
              if n = 0 then throw (.runtimeError (ascii "pwrite wrote 0 bytes"))
              else pwriteLoop call fuel ((buf.drop done).drop n) (offset + done + n)) := by
          rw [rest]
          rfl
        rw [unfolded, bind_run performed, if_neg (by omega), List.drop_drop, Nat.add_assoc]
        exact finished
      · have all : done = buf.length := by omega
        subst all
        rw [List.drop_length]
        exact ⟨state, rfl, now⟩
  exact rounds buf.length 0 state (Nat.sub_le _ _) (Nat.zero_le _) initially

theorem pwrite_next (kernel : Kernel) (path : Path) (buf : Bytes) (offset done : Nat) (first store : Store)
    (inside : offset + buf.length ≤ (first.content path).length) (more : done < buf.length)
    (written : store.content =
      Function.update first.content path (splice (first.content path) offset (buf.take done))) :
    ∃ n next, pwrite kernel path (buf.drop done) (offset + done) store = .ok n next ∧ 0 < n ∧
      done + n ≤ buf.length ∧
      next.content =
        Function.update first.content path (splice (first.content path) offset (buf.take (done + n))) ∧
      next.accesses = store.accesses ++ [⟨path, offset + done, n⟩] := by
  have before : (buf.take done).length = done := by
    rw [List.length_take]
    omega
  have width : (splice (first.content path) offset (buf.take done)).length =
      (first.content path).length := splice_length _ _ _ (by omega)
  have joined := splice_append (first.content path) offset (buf.take done)
    ((buf.drop done).take (min (buf.drop done).length (kernel.short store.calls + 1))) (by omega)
  rw [before, ← List.take_add] at joined
  refine ⟨_, _, rfl, ?_, ?_, ?_, rfl⟩
  · rw [List.length_drop]
    omega
  · rw [List.length_drop]
    omega
  · dsimp only
    rw [written, Function.update_self, extend_enough _ _ (by omega), joined, Function.update_idem]

/-- However the kernel cuts the calls, the whole buffer lands at the offset. -/
theorem pwriteAll_ok (kernel : Kernel) (path : Path) (buf : Bytes) (offset : Nat) (store : Store)
    (inside : offset + buf.length ≤ (store.content path).length) :
    ∃ next, pwriteAll kernel path buf offset store = .ok () next ∧
      next.content = Function.update store.content path (splice (store.content path) offset buf) ∧
      Within path offset (offset + buf.length) store next := by
  obtain ⟨final, performed, written, touched⟩ := pwriteLoop_rule
    (fun done state => state.content =
        Function.update store.content path (splice (store.content path) offset (buf.take done)) ∧
      Within path offset (offset + buf.length) store state)
    (pwrite kernel path) buf offset store
    (by
      rintro done state ⟨written, touched⟩ more
      obtain ⟨n, next, performed, moved, fits, content, access⟩ :=
        pwrite_next kernel path buf offset done store state inside more written
      exact ⟨n, next, performed, moved, fits, content, touched.last access (by omega) (by omega)⟩)
    ⟨by rw [List.take_zero, splice_nil, Function.update_eq_self], Within.refl _ _ _ _⟩
  rw [List.take_length] at written
  exact ⟨final, performed, written, touched⟩

theorem preadLoop_ok (kernel : Kernel) (path : Path) (fuel count offset : Nat) (store : Store)
    (enough : count ≤ fuel) (inside : offset + count ≤ (store.content path).length) :
    ∃ next, preadLoop kernel path fuel count offset store =
        .ok (slice (store.content path) offset count) next ∧
      next.content = store.content ∧ Within path offset (offset + count) store next := by
  induction fuel generalizing count offset store with
  | zero =>
    have empty : count = 0 := by omega
    subst empty
    exact ⟨store, by rw [slice_zero]; rfl, rfl, Within.refl _ _ _ _⟩
  | succ fuel ih =>
    cases count with
    | zero => exact ⟨store, by rw [slice_zero]; rfl, rfl, Within.refl _ _ _ _⟩
    | succ more =>
      generalize whole : more + 1 = count at enough inside ⊢
      obtain ⟨n, moved⟩ : ∃ n, n = min count (kernel.short store.calls + 1) := ⟨_, rfl⟩
      have width : (slice (store.content path) offset n).length = n :=
        slice_length _ _ _ (by omega)
      obtain ⟨middle, cut⟩ : ∃ middle : Store, middle = { store with
          calls := store.calls + 1
          accesses := store.accesses ++ [⟨path, offset, n⟩] } := ⟨_, rfl⟩
      have first : pread kernel path count offset store =
          .ok (slice (store.content path) offset n) middle := by
        simp only [pread, ← moved, width, cut]
      have same : middle.content = store.content := by rw [cut]
      obtain ⟨next, done, kept, touched⟩ := ih (count - n) (offset + n) middle (by omega)
        (by rw [same]; omega)
      refine ⟨next, ?_, by rw [kept, same], ?_⟩
      · have unfolded : preadLoop kernel path (fuel + 1) count offset =
            (pread kernel path count offset >>= fun bytes =>
              if bytes.length = 0 then
                throw (.runtimeError (ascii "unexpected EOF while reading"))
              else do
                let rest ← preadLoop kernel path fuel (count - bytes.length)
                  (offset + bytes.length)
                pure (bytes ++ rest)) := by
          rw [← whole]
          rfl
        have split := slice_append (store.content path) offset n (count - n)
        rw [Nat.add_sub_cancel' (by omega)] at split
        rw [unfolded, bind_run first, width, if_neg (by omega), bind_run done, split, same]
        rfl
      · refine Within.first path offset (offset + n) _ store middle next ?_ (by omega) (by omega) ?_
        · rw [cut, Nat.add_sub_cancel_left]
        · have last : offset + n + (count - n) = offset + count := by omega
          rw [last] at touched
          exact touched

def Tiled : List FileEntry → Nat → Nat → Prop
  | [], start, total => start = total
  | f :: rest, start, total => f.offset = start ∧ 0 < f.length ∧ Tiled rest (start + f.length) total

theorem Tiled.bounds (files : List FileEntry) (start total : Nat) (tiled : Tiled files start total) :
    start ≤ total ∧ ∀ f ∈ files, start ≤ f.offset ∧ f.offset + f.length ≤ total := by
  induction files generalizing start with
  | nil =>
    refine ⟨Nat.le_of_eq tiled, ?_⟩
    intro f member
    cases member
  | cons head tail ih =>
    obtain ⟨here, positive, later⟩ := tiled
    obtain ⟨ordered, each⟩ := ih (start + head.length) later
    refine ⟨by omega, ?_⟩
    intro f member
    rcases List.mem_cons.mp member with rfl | inner
    · omega
    · have bounds := each f inner
      omega

theorem Tiled.apart (files : List FileEntry) (start total : Nat) (tiled : Tiled files start total)
    (f g : FileEntry) (left : f ∈ files) (right : g ∈ files) (different : f ≠ g) :
    f.offset + f.length ≤ g.offset ∨ g.offset + g.length ≤ f.offset := by
  induction files generalizing start with
  | nil => cases left
  | cons head tail ih =>
    obtain ⟨here, positive, later⟩ := tiled
    have above := (Tiled.bounds tail _ total later).2
    rcases List.mem_cons.mp left with rfl | left_tail
    · rcases List.mem_cons.mp right with rfl | right_tail
      · exact absurd rfl different
      · have bound := (above g right_tail).1
        omega
    · rcases List.mem_cons.mp right with rfl | right_tail
      · have bound := (above f left_tail).1
        omega
      · exact ih (start + head.length) later left_tail right_tail

theorem subU64_inside (base offset length : Nat) (low : offset ≤ base)
    (high : base < offset + length) (small : offset + length < 2 ^ 64) :
    subU64 base offset = base - offset ∧ subU64 length (base - offset) = offset + length - base := by
  refine ⟨subU64_le base offset low (by omega), ?_⟩
  rw [subU64_le length (base - offset) (by omega) (by omega)]
  omega

/-- The `while` rule of the slice loop: an assertion on the bytes done so far that every
slice carries over holds at the end with all of them done. -/
theorem sliceLoop_rule {σ : Type} (holds : Nat → σ → Prop) (base len total : Nat)
    (op : Path → Nat → Nat → Nat → DiskM σ Unit) (files : List FileEntry) (start done : Nat) (state : σ)
    (tiled : Tiled files start total) (bound : base + len ≤ total) (small : total < 2 ^ 64)
    (reached : done ≤ len)
    (here : done < len → start ≤ base + done ∧ ∀ f ∈ files.head?, base + done < f.offset + f.length)
    (step : ∀ f ∈ files, ∀ done state, holds done state → done < len → f.offset ≤ base + done →
      base + done < f.offset + f.length →
      ∃ next, op f.path done (min (len - done) (f.offset + f.length - (base + done)))
          (base + done - f.offset) state = .ok () next ∧
        holds (done + min (len - done) (f.offset + f.length - (base + done))) next)
    (initially : holds done state) :
    ∃ final, sliceLoop base len op files done state = .ok () final ∧ holds len final := by
  induction files generalizing start done state with
  | nil =>
    have finished : ¬ done < len := by
      intro more
      have low := (here more).1
      have last : start = total := tiled
      omega
    have all : done = len := by omega
    subst all
    refine ⟨state, ?_, initially⟩
    rw [sliceLoop, if_neg finished]
    rfl
  | cons f rest ih =>
    by_cases more : done < len
    · obtain ⟨low, head⟩ := here more
      have inside := head f rfl
      obtain ⟨offset, positive, later⟩ := tiled
      have ordered := (Tiled.bounds rest _ total later).1
      have position : addU64 base done = base + done := by
        rw [addU64, Nat.mod_eq_of_lt (by omega)]
      obtain ⟨file_off, left⟩ := subU64_inside (base + done) f.offset f.length (by omega) inside
        (by omega)
      obtain ⟨n, width⟩ : ∃ n, n = min (len - done) (f.offset + f.length - (base + done)) := ⟨_, rfl⟩
      obtain ⟨next, performed, kept⟩ := step f (by simp) done state initially more (by omega) inside
      have advance : addU64 done n = done + n := by
        rw [addU64, Nat.mod_eq_of_lt (by omega)]
      rw [← width] at performed kept
      obtain ⟨final, finished, conclusion⟩ := ih (start + f.length) (done + n) next later (by omega)
        (by
          intro remaining
          have boundary : base + (done + n) = start + f.length := by omega
          refine ⟨by omega, ?_⟩
          intro g first
          cases rest with
          | nil => cases first
          | cons second others =>
            cases first
            obtain ⟨next_offset, next_positive, _⟩ := later
            omega)
        (fun g member => step g (by simp [member])) kept
      refine ⟨final, ?_, conclusion⟩
      rw [sliceLoop, if_pos more]
      simp only [position, file_off, left, ← width, advance]
      rw [bind_run performed]
      exact finished
    · have all : done = len := by omega
      subst all
      refine ⟨state, ?_, initially⟩
      rw [sliceLoop, if_neg more]
      rfl

theorem locate_split (files : List FileEntry) (start total offset : Nat)
    (tiled : Tiled files start total) (low : start ≤ offset) (high : offset < total) :
    ∃ before, (files.takeWhile (fun e => decide (¬ offset < e.offset))).length = before + 1 ∧
      ∃ f rest, files.drop before = f :: rest ∧ Tiled (f :: rest) f.offset total ∧
        f.offset ≤ offset ∧ offset < f.offset + f.length := by
  induction files generalizing start with
  | nil =>
    have last : start = total := tiled
    omega
  | cons f rest ih =>
    obtain ⟨here, positive, later⟩ := tiled
    have taken : decide (¬ offset < f.offset) = true := decide_eq_true (by omega)
    rw [List.takeWhile_cons, if_pos taken, List.length_cons]
    by_cases inside : offset < start + f.length
    · refine ⟨0, ?_, f, rest, rfl, ⟨rfl, positive, here ▸ later⟩, by omega, by omega⟩
      cases rest with
      | nil => rfl
      | cons second others =>
        have beyond : ¬ decide (¬ offset < second.offset) = true := by
          have next := later.1
          rw [decide_eq_true_eq]
          omega
        rw [List.takeWhile_cons, if_neg beyond, List.length_nil]
    · obtain ⟨before, count, found⟩ := ih (start + f.length) later (by omega)
      exact ⟨before + 1, by rw [count], found⟩

section Ranges

variable {σ : Type} (disk : DiskManager) (total : Nat) (base len : Nat)
  (op : Path → Nat → Nat → Nat → DiskM σ Unit)

theorem forEachSlice_rule (tiled : Tiled disk.files 0 total) (same : disk.totalLength = total)
    (small : total < 2 ^ 64) (bound : base + len ≤ total) (holds : Nat → σ → Prop) (state : σ)
    (step : ∀ f ∈ disk.files, ∀ done state, holds done state → done < len → f.offset ≤ base + done →
      base + done < f.offset + f.length →
      ∃ next, op f.path done (min (len - done) (f.offset + f.length - (base + done)))
          (base + done - f.offset) state = .ok () next ∧
        holds (done + min (len - done) (f.offset + f.length - (base + done))) next)
    (initially : holds 0 state) :
    ∃ final, disk.forEachSlice base len op state = .ok () final ∧ holds len final := by
  by_cases empty : len = 0
  · subst empty
    exact ⟨state, rfl, initially⟩
  have in_range : ¬ disk.totalLength < addU64 base len := by
    rw [addU64, Nat.mod_eq_of_lt (by omega), same]
    omega
  obtain ⟨before, count, f, rest, dropped, from_f, low, high⟩ :=
    locate_split disk.files 0 total base tiled (Nat.zero_le base) (by omega)
  have located : disk.locate base = .ok before := by
    simp only [locate, count]
    rfl
  obtain ⟨final, finished, conclusion⟩ := sliceLoop_rule holds base len total op (f :: rest) f.offset 0
    state from_f bound small (Nat.zero_le len)
    (by
      intro _
      refine ⟨by omega, ?_⟩
      intro g first
      cases first
      omega)
    (fun g member => step g (List.mem_of_mem_drop (dropped ▸ member))) initially
  refine ⟨final, ?_, conclusion⟩
  rw [forEachSlice, if_neg empty, if_neg in_range, located]
  simp only [dropped]
  exact finished

theorem forEachSlice_past (same : disk.totalLength = total) (small : base + len < 2 ^ 64)
    (past : total < base + len) (inside : base ≤ total) (state : σ) :
    disk.forEachSlice base len op state =
      .error (.outOfRange (ascii "range extends past the end of the torrent")) state := by
  have nonempty : len ≠ 0 := by omega
  have out_of_range : disk.totalLength < addU64 base len := by
    rw [addU64, Nat.mod_eq_of_lt small, same]
    exact past
  rw [forEachSlice, if_neg nonempty, if_pos out_of_range]
  rfl

end Ranges

end TorrentPeer.DiskManager
