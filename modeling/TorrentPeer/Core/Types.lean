import Mathlib.Data.List.Basic

/-! Values shared by every component: byte strings, exceptions, block requests. -/

namespace TorrentPeer

abbrev Bytes := List UInt8

/-- The steady clock, in nanoseconds. -/
abbrev Time := Int

def ascii (text : String) : Bytes := text.toList.map (fun c => UInt8.ofNat c.toNat)

def seconds (count : Int) : Time := count * 1000000000

/-- What C++ code leaves a function with when it does not return. `undefined` stands
for an access past the end of a container, which no handler can catch. -/
inductive Exn where
  | runtimeError (what : Bytes)
  | outOfRange (what : Bytes)
  | badVariantAccess
  | undefined (what : Bytes)
  deriving DecidableEq, Repr

theorem bind_ok {α β : Type} {first : Except Exn α} {rest : α → Except Exn β} {result : β}
    (success : first >>= rest = .ok result) :
    ∃ value, first = .ok value ∧ rest value = .ok result := by
  cases first with
  | error problem => cases success
  | ok value => exact ⟨value, rfl, success⟩

def kBlockSize : Nat := 16384

structure Peer where
  host : Bytes
  port : Bytes
  deriving DecidableEq, Repr

structure BlockRequest where
  pieceIndex : Nat
  offset : Nat
  length : Nat
  deriving DecidableEq, Repr

structure Block where
  pieceIndex : Nat
  offset : Nat
  data : Bytes
  deriving DecidableEq, Repr

structure CompletedPiece where
  index : Nat
  data : Bytes
  deriving DecidableEq, Repr

structure PendingRequest where
  req : BlockRequest
  sentAt : Time
  deriving DecidableEq, Repr

def takeStale (pending : List PendingRequest) (cutoff : Time) :
    List BlockRequest × List PendingRequest :=
  ((pending.takeWhile (fun p => decide (p.sentAt < cutoff))).map PendingRequest.req,
    pending.dropWhile (fun p => decide (p.sentAt < cutoff)))

theorem takeStale_split (pending : List PendingRequest) (cutoff : Time) :
    pending.map PendingRequest.req =
      (takeStale pending cutoff).1 ++ (takeStale pending cutoff).2.map PendingRequest.req := by
  simp only [takeStale]
  rw [← List.map_append, List.takeWhile_append_dropWhile]

end TorrentPeer
