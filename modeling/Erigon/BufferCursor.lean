/-
Writing into and reading from byte buffers at a moving position, piece behind piece.  A write
that does not fit panics; pieces that together are as long as the buffer replace it.
-/
import Erigon.ByteCodec
import Erigon.Query

namespace Erigon

open List Result

/-- Write a piece at a position. -/
def putAt (buffer : Bytes) (pos : Nat) (piece : Bytes) : Result Bytes :=
  if pos + piece.length ≤ buffer.length then
    .ok (buffer.take pos ++ piece ++ buffer.drop (pos + piece.length))
  else .panic "index out of range"

/-- `copy(buffer[pos:], src)`: what does not fit is left out. -/
def copyAt (buffer : Bytes) (pos : Nat) (src : Bytes) : Result Bytes :=
  if pos ≤ buffer.length then
    .ok (buffer.take pos ++ src.take (buffer.length - pos) ++ buffer.drop (pos + src.length))
  else .panic "slice bounds out of range"

variable (piece : Bytes)

/-- Write a piece and go behind it. -/
def putNext (buffer : Bytes) (pos : Nat) : Result (Bytes × Nat) := do
  let buffer ← putAt buffer pos piece
  return (buffer, pos + piece.length)

/-- Copy a piece and go behind it. -/
def copyNext (buffer : Bytes) (pos : Nat) : Result (Bytes × Nat) := do
  let buffer ← copyAt buffer pos piece
  return (buffer, pos + piece.length)

/-! ### Writers -/

/-- A writer that puts a piece at its position, if there is room, and then does `finish` with the
buffer and the position behind the piece. -/
def Writes {R : Type} (finish write : Bytes → Nat → Result R) (piece : Bytes) : Prop :=
  ∀ front old, piece.length ≤ old.length →
    write (front ++ old) front.length =
      finish (front ++ piece ++ old.drop piece.length) (front ++ piece).length

/-- A writer that gives back the buffer and the position. -/
abbrev Puts (write : Bytes → Nat → Result (Bytes × Nat)) (piece : Bytes) : Prop :=
  Writes (fun buffer pos => .ok (buffer, pos)) write piece

namespace Writes

variable {R : Type} {finish write next : Bytes → Nat → Result R} {piece rest : Bytes}

theorem done (finish : Bytes → Nat → Result R) : Writes finish finish [] := by
  intro front old hle
  simp

/-- One piece behind another. -/
theorem andThen {put : Bytes → Nat → Result (Bytes × Nat)} (hput : Puts put piece)
    (hnext : Writes finish next rest) :
    Writes finish (fun buffer pos => put buffer pos >>= fun at_ => next at_.1 at_.2)
      (piece ++ rest) := by
  intro front old hle
  have hboth : piece.length + rest.length ≤ old.length := by rwa [← length_append]
  have hroom : rest.length ≤ (old.drop piece.length).length := by
    rw [length_drop]
    omega
  have hfirst := hput front old (Nat.le_trans (Nat.le_add_right _ _) hboth)
  have hsecond := hnext (front ++ piece) (old.drop piece.length) hroom
  rw [drop_drop, ← length_append, append_assoc front piece rest] at hsecond
  simp only [hfirst, ok_bind]
  exact hsecond

/-- A buffer that the piece fills. -/
theorem fill (hwrite : Writes finish write piece) {buffer : Bytes}
    (hlength : buffer.length = piece.length) : write buffer 0 = finish piece piece.length := by
  have hwritten := hwrite [] buffer hlength.ge
  rwa [← hlength, drop_length, append_nil] at hwritten

end Writes

theorem putAt_append {front old piece : Bytes} (hle : piece.length ≤ old.length) :
    putAt (front ++ old) front.length piece = .ok (front ++ piece ++ old.drop piece.length) := by
  have hfits : front.length + piece.length ≤ (front ++ old).length := by
    rw [length_append]
    omega
  rw [putAt, if_pos hfits, take_left, ← drop_drop, drop_left]

theorem copyAt_append {front old src : Bytes} (hle : src.length ≤ old.length) :
    copyAt (front ++ old) front.length src = .ok (front ++ src ++ old.drop src.length) := by
  have hlength : (front ++ old).length - front.length = old.length := by simp
  rw [copyAt, if_pos (by simp), take_left, hlength, take_of_length_le hle, ← drop_drop, drop_left]

theorem puts_putNext : Puts (putNext piece) piece := by
  intro front old hle
  rw [putNext, putAt_append hle, ok_bind, length_append]
  rfl

theorem puts_copyNext : Puts (copyNext piece) piece := by
  intro front old hle
  rw [copyNext, copyAt_append hle, ok_bind, length_append]
  rfl

/-! ### Readers -/

/-- A reader that reads over a piece at its position and ends as `finish` says of the position
behind it.  Positions are machine integers. -/
def Reads {R : Type} (finish : Nat → Result R) (read : Bytes → Nat → Result R) (piece : Bytes) :
    Prop :=
  ∀ front back, (front ++ piece ++ back).length < 2 ^ 63 →
    read (front ++ piece ++ back) front.length = finish (front ++ piece).length

/-- A reader that gives a value and the position behind the piece. -/
abbrev Gives {A : Type} (value : A) (read : Bytes → Nat → Result (A × Nat)) (piece : Bytes) :
    Prop :=
  Reads (fun pos => .ok (value, pos)) read piece

namespace Reads

variable {R A : Type} {finish : Nat → Result R} {next : Bytes → A × Nat → Result R}
  {piece rest : Bytes} {value : A}

theorem done (finish : Nat → Result R) : Reads finish (fun _ pos => finish pos) [] := by
  intro front back hsize
  simp

/-- One piece behind another. -/
theorem andThen {read : Bytes → Nat → Result (A × Nat)} (hread : Gives value read piece)
    (hnext : Reads finish (fun enc pos => next enc (value, pos)) rest) :
    Reads finish (fun enc pos => read enc pos >>= next enc) (piece ++ rest) := by
  intro front back hsize
  have hfirst := hread front (rest ++ back)
  have hsecond := hnext (front ++ piece) back
  simp only [append_assoc] at hfirst hsecond hsize ⊢
  rw [hfirst hsize, ok_bind]
  exact hsecond hsize

theorem last {read : Bytes → Nat → Result (A × Nat)} (hread : Gives value read piece)
    (hnext : ∀ enc pos, next enc (value, pos) = finish pos) :
    Reads finish (fun enc pos => read enc pos >>= next enc) piece := by
  intro front back hsize
  simp only [hread front back hsize, ok_bind, hnext]

end Reads

end Erigon
