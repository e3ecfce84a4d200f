import TorrentPeer.Lib.BigEndian

/-! Messages in a byte stream, each behind its length as four bytes in network order, with
a limit on that length. -/

namespace TorrentPeer.Framing

open BigEndian

def frame (message : List UInt8) : List UInt8 := be32 message.length ++ message

@[simp] theorem frame_length (message : List UInt8) : (frame message).length = 4 + message.length := by
  rw [frame, List.length_append, be32_length]

theorem readBe32_frame {message : List UInt8} (small : message.length < 2 ^ 32) (rest : List UInt8) :
    readBe32 (frame message ++ rest) = message.length := by
  rw [frame, List.append_assoc]
  exact readBe32_append message.length small (message ++ rest)

variable (limit : Nat)

/-- The stream is these messages, none of them over the limit, and what follows them. -/
structure Framed (stream : List UInt8) (messages : List (List UInt8)) (rest : List UInt8) : Prop where
  split : stream = (messages.map frame).flatten ++ rest
  short : ∀ message ∈ messages, message.length ≤ limit

def Unfinished (rest : List UInt8) : Prop :=
  rest.length < 4 ∨ readBe32 rest ≤ limit ∧ rest.length < 4 + readBe32 rest

def Oversized (rest : List UInt8) : Prop := 4 ≤ rest.length ∧ limit < readBe32 rest

variable {limit} {stream rest : List UInt8} {messages : List (List UInt8)}

theorem Unfinished.bound (unfinished : Unfinished limit rest) : rest.length < 4 + limit := by
  rcases unfinished with short | ⟨small, part⟩
  · omega
  · omega

theorem Oversized.more (oversized : Oversized limit rest) (chunk : List UInt8) : Oversized limit (rest ++ chunk) := by
  obtain ⟨whole, beyond⟩ := oversized
  have same : readBe32 (rest ++ chunk) = readBe32 rest := by
    have front : rest ++ chunk = be32 (readBe32 rest) ++ (rest.drop 4 ++ chunk) := by
      rw [be32_readBe32 whole, ← List.append_assoc, List.take_append_drop]
    rw [front, readBe32_append _ (readBe32_bound rest)]
  refine ⟨Nat.le_trans whole (by simp), ?_⟩
  rw [same]
  exact beyond

theorem Framed.start (stream : List UInt8) : Framed limit stream [] stream :=
  ⟨rfl, fun _ absent => absurd absent List.not_mem_nil⟩

theorem Framed.more (framed : Framed limit stream messages rest) (chunk : List UInt8) :
    Framed limit (stream ++ chunk) messages (rest ++ chunk) := by
  refine ⟨?_, framed.short⟩
  rw [framed.split, List.append_assoc]

theorem Framed.next {message : List UInt8} (framed : Framed limit stream messages (frame message ++ rest))
    (small : message.length ≤ limit) : Framed limit stream (messages ++ [message]) rest := by
  constructor
  · calc stream
        = (messages.map frame).flatten ++ (frame message ++ rest) := framed.split
      _ = ((messages ++ [message]).map frame).flatten ++ rest := by simp
  · intro other member
    rcases List.mem_append.mp member with old | new
    · exact framed.short other old
    · rw [List.mem_singleton.mp new]
      exact small

section Decoding

variable (narrow : limit < 2 ^ 32)
include narrow

theorem frame_complete {message : List UInt8} (small : message.length ≤ limit) (rest : List UInt8) :
    ¬ Unfinished limit (frame message ++ rest) ∧ ¬ Oversized limit (frame message ++ rest) := by
  have length := readBe32_frame (Nat.lt_of_le_of_lt small narrow) rest
  have size : (frame message ++ rest).length = 4 + message.length + rest.length := by
    rw [List.length_append, frame_length]
  constructor
  · intro unfinished
    rcases unfinished with short | ⟨-, part⟩
    · omega
    · omega
  · intro oversized
    have beyond := oversized.2
    omega

theorem frame_injective {first second : List UInt8} (small : first.length ≤ limit)
    (modest : second.length ≤ limit) {left right : List UInt8}
    (same : frame first ++ left = frame second ++ right) : first = second ∧ left = right := by
  have lengths : first.length = second.length := by
    rw [← readBe32_frame (Nat.lt_of_le_of_lt small narrow) left, same,
      readBe32_frame (Nat.lt_of_le_of_lt modest narrow) right]
  rw [frame, frame, lengths, List.append_assoc, List.append_assoc] at same
  exact List.append_inj (List.append_cancel_left same) lengths

/-- Two readings of one stream agree: the one that has stopped for good has the messages of
the other first. -/
theorem Framed.leads {more : List (List UInt8)} {left : List UInt8} (framed : Framed limit stream messages rest)
    (other : Framed limit stream more left) (stopped : Unfinished limit left ∨ Oversized limit left) :
    messages <+: more := by
  induction messages generalizing stream more with
  | nil => exact List.nil_prefix
  | cons message messages ih =>
    have small := framed.short message (List.mem_cons_self ..)
    have first : stream = frame message ++ ((messages.map frame).flatten ++ rest) := by
      rw [framed.split, List.map_cons, List.flatten_cons, List.append_assoc]
    cases more with
    | nil =>
      have whole := frame_complete narrow small ((messages.map frame).flatten ++ rest)
      have same : stream = left := other.split
      rw [← first, same] at whole
      exact absurd stopped (not_or.mpr whole)
    | cons second more =>
      have modest := other.short second (List.mem_cons_self ..)
      have again : stream = frame second ++ ((more.map frame).flatten ++ left) := by
        rw [other.split, List.map_cons, List.flatten_cons, List.append_assoc]
      obtain ⟨equal, onward⟩ := frame_injective narrow small modest (first.symm.trans again)
      rw [equal]
      apply List.prefix_cons_inj second |>.mpr
      apply ih ⟨rfl, fun one member => framed.short one (List.mem_cons_of_mem _ member)⟩
      exact ⟨onward, fun one member => other.short one (List.mem_cons_of_mem _ member)⟩

/-- A stream has one reading. -/
theorem Framed.unique {more : List (List UInt8)} {left : List UInt8} (framed : Framed limit stream messages rest)
    (stopped : Unfinished limit rest ∨ Oversized limit rest) (other : Framed limit stream more left)
    (halted : Unfinished limit left ∨ Oversized limit left) : messages = more ∧ rest = left := by
  have forward := framed.leads narrow other halted
  have backward := other.leads narrow framed stopped
  have same : messages = more :=
    forward.eq_of_length (Nat.le_antisymm forward.length_le backward.length_le)
  refine ⟨same, ?_⟩
  have whole : (messages.map frame).flatten ++ rest = (messages.map frame).flatten ++ left := by
    rw [← framed.split, other.split, same]
  exact List.append_cancel_left whole

end Decoding

theorem buffer_cases (buffer : List UInt8) :
    Unfinished limit buffer ∨ Oversized limit buffer ∨
      buffer = frame ((buffer.drop 4).take (readBe32 buffer)) ++ buffer.drop (4 + readBe32 buffer) ∧
        ((buffer.drop 4).take (readBe32 buffer)).length = readBe32 buffer ∧ readBe32 buffer ≤ limit := by
  by_cases short : buffer.length < 4
  · exact Or.inl (Or.inl short)
  by_cases beyond : limit < readBe32 buffer
  · exact Or.inr (Or.inl ⟨Nat.le_of_not_lt short, beyond⟩)
  by_cases part : buffer.length < 4 + readBe32 buffer
  · exact Or.inl (Or.inr ⟨Nat.le_of_not_lt beyond, part⟩)
  · have size : ((buffer.drop 4).take (readBe32 buffer)).length = readBe32 buffer := by
      rw [List.length_take, List.length_drop]
      omega
    refine Or.inr (Or.inr ⟨?_, size, Nat.le_of_not_lt beyond⟩)
    calc buffer
        = buffer.take 4 ++ buffer.drop 4 := (List.take_append_drop 4 buffer).symm
      _ = be32 (readBe32 buffer) ++
            ((buffer.drop 4).take (readBe32 buffer) ++ (buffer.drop 4).drop (readBe32 buffer)) := by
          rw [be32_readBe32 (Nat.le_of_not_lt short), List.take_append_drop (readBe32 buffer)]
      _ = frame ((buffer.drop 4).take (readBe32 buffer)) ++ buffer.drop (4 + readBe32 buffer) := by
          rw [frame, size, List.append_assoc, List.drop_drop]

end TorrentPeer.Framing
