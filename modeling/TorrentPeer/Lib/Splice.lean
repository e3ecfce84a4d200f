import Mathlib.Data.List.Basic
import Mathlib.Tactic.Ring
import Mathlib.Tactic.Linarith

/-! Reading and overwriting a range of a list in place, as `memcpy` into a
buffer and `pread`/`pwrite` on a file do. Both are stated by index, so that
disjoint ranges and adjacent ranges reduce to linear arithmetic. -/

namespace TorrentPeer.Splice

variable {α : Type}

def slice (items : List α) (offset count : Nat) : List α := (items.drop offset).take count

def splice (items : List α) (offset : Nat) (patch : List α) : List α :=
  items.take offset ++ patch ++ items.drop (offset + patch.length)

@[simp] theorem slice_zero (items : List α) (offset : Nat) : slice items offset 0 = [] := by
  simp [slice]

theorem slice_length (items : List α) (offset count : Nat)
    (bound : offset + count ≤ items.length) : (slice items offset count).length = count := by
  simp only [slice, List.length_take, List.length_drop]
  omega

theorem slice_all (items : List α) : slice items 0 items.length = items := by
  simp [slice]

theorem slice_get (items : List α) (offset count index : Nat) :
    (slice items offset count)[index]? =
      if index < count then items[offset + index]? else none := by
  by_cases inside : index < count
  · simp [slice, inside]
  · simp [slice, inside]

theorem slice_append (items : List α) (offset first second : Nat) :
    slice items offset (first + second) =
      slice items offset first ++ slice items (offset + first) second := by
  simp only [slice, List.take_add, List.drop_drop]

theorem slice_slice (items : List α) (outer count inner width : Nat)
    (bound : inner + width ≤ count) :
    slice (slice items outer count) inner width = slice items (outer + inner) width := by
  apply List.ext_getElem?
  intro index
  simp only [slice_get]
  by_cases inside : index < width
  · have within : inner + index < count := by omega
    simp only [if_pos inside, if_pos within, Nat.add_assoc]
  · simp only [if_neg inside]

theorem splice_length (items : List α) (offset : Nat) (patch : List α)
    (bound : offset + patch.length ≤ items.length) :
    (splice items offset patch).length = items.length := by
  simp only [splice, List.length_append, List.length_take, List.length_drop]
  omega

@[simp] theorem splice_nil (items : List α) (offset : Nat) : splice items offset [] = items := by
  simp [splice]

theorem splice_get (items : List α) (offset : Nat) (patch : List α) (index : Nat)
    (bound : offset ≤ items.length) :
    (splice items offset patch)[index]? =
      if index < offset then items[index]?
      else if index < offset + patch.length then patch[index - offset]?
      else items[index]? := by
  have head : (items.take offset).length = offset := by
    rw [List.length_take]
    omega
  have both : (items.take offset ++ patch).length = offset + patch.length := by
    rw [List.length_append, head]
  by_cases before : index < offset
  · rw [if_pos before, splice, List.append_assoc,
      List.getElem?_append_left (by rw [head]; exact before), List.getElem?_take, if_pos before]
  · rw [if_neg before]
    by_cases inside : index < offset + patch.length
    · rw [if_pos inside, splice, List.getElem?_append_left (by rw [both]; exact inside),
        List.getElem?_append_right (by rw [head]; omega), head]
    · rw [if_neg inside, splice, List.getElem?_append_right (by rw [both]; omega), both,
        List.getElem?_drop]
      congr 1
      omega

theorem slice_splice_same (items : List α) (offset : Nat) (patch : List α)
    (bound : offset ≤ items.length) :
    slice (splice items offset patch) offset patch.length = patch := by
  apply List.ext_getElem?
  intro index
  rw [slice_get]
  by_cases inside : index < patch.length
  · have after : ¬ offset + index < offset := by omega
    have within : offset + index < offset + patch.length := by omega
    rw [if_pos inside, splice_get _ _ _ _ bound, if_neg after, if_pos within,
      Nat.add_sub_cancel_left]
  · rw [if_neg inside, List.getElem?_eq_none (by omega)]

theorem slice_splice_disjoint (items : List α) (offset : Nat) (patch : List α)
    (start count : Nat) (bound : offset ≤ items.length)
    (apart : start + count ≤ offset ∨ offset + patch.length ≤ start) :
    slice (splice items offset patch) start count = slice items start count := by
  apply List.ext_getElem?
  intro index
  rw [slice_get, slice_get]
  by_cases inside : index < count
  · rw [if_pos inside, if_pos inside, splice_get _ _ _ _ bound]
    by_cases before : start + index < offset
    · rw [if_pos before]
    · have after : ¬ start + index < offset + patch.length := by omega
      rw [if_neg before, if_neg after]
  · rw [if_neg inside, if_neg inside]

theorem splice_append (items : List α) (offset : Nat) (first second : List α)
    (bound : offset + first.length ≤ items.length) :
    splice (splice items offset first) (offset + first.length) second =
      splice items offset (first ++ second) := by
  have kept : (splice items offset first).length = items.length :=
    splice_length items offset first bound
  apply List.ext_getElem?
  intro index
  rw [splice_get _ _ _ _ (by omega), splice_get _ _ _ _ (by omega),
    splice_get _ _ _ _ (by omega), List.length_append]
  by_cases before : index < offset
  · have left : index < offset + first.length := by omega
    rw [if_pos left, if_pos before, if_pos before]
  · rw [if_neg before, if_neg before]
    by_cases middle : index < offset + first.length
    · have joint : index < offset + (first.length + second.length) := by omega
      rw [if_pos middle, if_pos middle, if_pos joint,
        List.getElem?_append_left (by omega)]
    · rw [if_neg middle, if_neg middle, Nat.add_assoc]
      by_cases last : index < offset + (first.length + second.length)
      · rw [if_pos last, if_pos last, List.getElem?_append_right (by omega)]
        congr 1
        omega
      · rw [if_neg last, if_neg last]

theorem slice_splice_inside (items : List α) (offset : Nat) (patch : List α) (start count : Nat)
    (low : start ≤ offset) (high : offset + patch.length ≤ start + count)
    (bound : start + count ≤ items.length) :
    slice (splice items offset patch) start count =
      splice (slice items start count) (offset - start) patch := by
  have width := slice_length items start count bound
  apply List.ext_getElem?
  intro index
  rw [slice_get, splice_get _ _ _ _ (by omega), splice_get _ _ _ _ (by omega), slice_get]
  by_cases inside : index < count
  · rw [if_pos inside, if_pos inside]
    by_cases before : start + index < offset
    · have shifted : index < offset - start := by omega
      rw [if_pos before, if_pos shifted]
    · have shifted : ¬ index < offset - start := by omega
      rw [if_neg before, if_neg shifted]
      by_cases within : start + index < offset + patch.length
      · have window : index < offset - start + patch.length := by omega
        rw [if_pos within, if_pos window]
        congr 1
        omega
      · have window : ¬ index < offset - start + patch.length := by omega
        rw [if_neg within, if_neg window]
  · have before : ¬ index < offset - start := by omega
    have window : ¬ index < offset - start + patch.length := by omega
    rw [if_neg inside, if_neg before, if_neg window, if_neg inside]

def chunk (width : Nat) (items : List α) (b : Nat) : List α :=
  slice items (b * width) (min width (items.length - b * width))

theorem chunk_splice (width : Nat) (items : List α) (b : Nat) (patch : List α) (other : Nat)
    (inside : b * width + patch.length ≤ items.length)
    (exact_width : patch.length = min width (items.length - b * width)) :
    chunk width (splice items (b * width) patch) other =
      if other = b then patch else chunk width items other := by
  rw [chunk, splice_length _ _ _ inside]
  by_cases same : other = b
  · rw [if_pos same, same, ← exact_width]
    exact slice_splice_same items (b * width) patch (by omega)
  · rw [if_neg same, chunk]
    apply slice_splice_disjoint items (b * width) patch _ _ (by omega)
    rcases Nat.lt_or_gt_of_ne same with before | after
    · have gap := Nat.mul_le_mul_right width before
      rw [Nat.succ_mul] at gap
      omega
    · have gap := Nat.mul_le_mul_right width after
      rw [Nat.succ_mul] at gap
      omega

theorem chunks_ext (width : Nat) (positive : 0 < width) (first second : List α)
    (same : first.length = second.length)
    (agree : ∀ b, b * width < first.length → chunk width first b = chunk width second b) :
    first = second := by
  apply List.ext_getElem?
  intro index
  by_cases inside : index < first.length
  · have place := Nat.div_add_mod index width
    have low := Nat.mod_lt index positive
    rw [Nat.mul_comm] at place
    have block := congrArg (fun items => items[index % width]?) (agree (index / width) (by omega))
    have within : index % width < min width (first.length - index / width * width) := by omega
    simp only [chunk, slice_get, ← same, if_pos within, place] at block
    exact block
  · rw [List.getElem?_eq_none (by omega), List.getElem?_eq_none (by omega)]

theorem chunks_take (width : Nat) (items : List α) (count : Nat) :
    ((List.range count).map (chunk width items)).flatten = items.take (count * width) := by
  induction count with
  | zero => simp
  | succ count ih =>
    have last : chunk width items count = (items.drop (count * width)).take width := by
      rw [chunk, slice, ← List.length_drop, List.take_eq_take_min (i := width)]
    rw [List.range_succ, List.map_append, List.flatten_append, ih, Nat.succ_mul, List.take_add, List.map_singleton,
      List.flatten_singleton, last]

theorem splice_whole (items patch : List α) (same : patch.length = items.length) :
    splice items 0 patch = patch := by
  simp [splice, same]

end TorrentPeer.Splice
