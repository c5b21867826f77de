/-
The receiving half of `t_connection` (`connection.h`): the completion handler
`do_read` gives `async_read_some`, with its frame loop over the buffer and the
bytes it carries over to the next read.

`buffer_` is a function from index to byte. `async_read_some` stores a chunk
behind the unparsed bytes; a chunk fits when it is no longer than the space
offered there. Dispatcher calls are recorded in order. `consumed` is not in
the code: it counts the bytes of the frames dispatched, which places an
offending frame in the stream.
-/
import ConfigServer.Lib.Framing
import ConfigServer.Protocol

namespace ConfigServer

open LittleEndian Framing

def maxMessageSize : Nat := 1024 * 1024
def msgSizeBytes : Nat := 4
def bufferSize : Nat := 4 * 1024 * 1024

/-! ## The buffer -/

abbrev Buffer := Nat → UInt8

namespace Buffer

/-- The bytes from `first` up to `last`. -/
def slice (b : Buffer) (first last : Nat) : Bytes := (List.range (last - first)).map fun i => b (first + i)

/-- `bytes` stored from `pos` on. -/
def write (b : Buffer) (pos : Nat) (bytes : Bytes) : Buffer :=
  fun i => if pos ≤ i ∧ i < pos + bytes.length then bytes.getD (i - pos) 0 else b i

/-- `std::memmove` inside the buffer. -/
def memmove (b : Buffer) (dst src len : Nat) : Buffer := b.write dst (b.slice src (src + len))

@[simp] theorem slice_length (b : Buffer) (first last : Nat) :
    (b.slice first last).length = last - first := by
  simp [slice]

theorem slice_write_self (b : Buffer) (pos : Nat) (bytes : Bytes) :
    (b.write pos bytes).slice pos (pos + bytes.length) = bytes := by
  apply List.ext_getElem
  · simp
  · intro i h₁ h₂
    simp only [slice, write, List.getElem_map, List.getElem_range]
    simp [h₂]

theorem slice_write_before (b : Buffer) {pos last : Nat} (h : last ≤ pos) (first : Nat) (bytes : Bytes) :
    (b.write pos bytes).slice first last = b.slice first last := by
  apply List.ext_getElem
  · simp
  · intro i h₁ h₂
    simp only [slice_length] at h₁
    simp only [slice, write, List.getElem_map, List.getElem_range]
    rw [if_neg (by omega)]

theorem slice_append (b : Buffer) {first mid last : Nat} (h₁ : first ≤ mid) (h₂ : mid ≤ last) :
    b.slice first mid ++ b.slice mid last = b.slice first last := by
  apply List.ext_getElem
  · simp
    omega
  · intro i hi hi'
    simp only [List.length_append, slice_length] at hi
    simp only [slice, List.getElem_append, List.getElem_map, List.getElem_range, List.length_map,
      List.length_range]
    split
    · rfl
    · next h => congr 1; omega

theorem slice_drop (b : Buffer) {first mid last : Nat} (h₁ : first ≤ mid) (h₂ : mid ≤ last) :
    b.slice mid last = (b.slice first last).drop (mid - first) := by
  rw [← slice_append b h₁ h₂, List.drop_left' (slice_length b first mid)]

theorem slice_take (b : Buffer) {first mid last : Nat} (h₁ : first ≤ mid) (h₂ : mid ≤ last) :
    b.slice first mid = (b.slice first last).take (mid - first) := by
  rw [← slice_append b h₁ h₂, List.take_left' (slice_length b first mid)]

end Buffer

/-! ## The handler -/

/-- Why the handler posts `close`. -/
inductive FrameError
  | invalidMessageSize (msgSize : Nat)
  | readError (what : String)
deriving DecidableEq

/-- How the frame loop ends. -/
inductive LoopExit (C : Type)
  | stopped (calls : List C) (offset : Nat)
  | failed (calls : List C) (offset : Nat) (e : FrameError)
  | outOfFuel

inductive ReadStatus
  | reading
  | closing (e : FrameError)
  | looping
deriving DecidableEq

structure Receiver (C : Type) where
  buffer : Buffer := fun _ => 0
  unparsedBytes : Nat := 0
  calls : List C := []
  consumed : Nat := 0
  status : ReadStatus := .reading

namespace Receiver

variable {C : Type} (read : Bytes → Except String C)

/-- What one iteration of the frame loop does: leave it, or dispatch a command and go on behind its frame. -/
inductive FrameStep (C : Type)
  | stopped
  | failed (e : FrameError)
  | advance (call : C) (offset : Nat)

/-- The body of the `while` loop over the `n` valid bytes of the buffer. -/
def frameStep (buffer : Buffer) (n offset : Nat) : FrameStep C :=
  if SizeT.sub n offset ≥ msgSizeBytes then
    let msgSize := leNat (buffer.slice offset (offset + msgSizeBytes))
    if msgSize < msgSizeBytes ∨ msgSize > maxMessageSize then
      .failed (.invalidMessageSize msgSize)
    else if SizeT.sub n offset < msgSize then
      .stopped
    else
      let message := buffer.slice (offset + msgSizeBytes) (offset + msgSize)
      match read message with
      | .error e => .failed (.readError e)
      | .ok call => .advance call (SizeT.add offset msgSize)
  else
    .stopped

/-- The `while` loop. -/
def frameLoop (buffer : Buffer) (n : Nat) : Nat → List C → Nat → LoopExit C
  | 0, _, _ => .outOfFuel
  | fuel + 1, calls, offset =>
    match frameStep read buffer n offset with
    | .stopped => .stopped calls offset
    | .failed e => .failed calls offset e
    | .advance call offset => frameLoop buffer n fuel (calls ++ [call]) offset

/-- What the handler does with the end of the loop: keep the unparsed bytes
at the front of the buffer for the next read, or have the connection closed. -/
def afterLoop (s : Receiver C) (buffer : Buffer) (n : Nat) : LoopExit C → Receiver C
  | .stopped calls offset =>
    let s := { s with buffer, calls, consumed := s.consumed + offset }
    if offset < n then
      { s with buffer := buffer.memmove 0 offset (SizeT.sub n offset), unparsedBytes := SizeT.sub n offset }
    else
      { s with unparsedBytes := 0 }
  | .failed calls offset e => { s with buffer, calls, consumed := s.consumed + offset, status := .closing e }
  | .outOfFuel => { s with buffer, status := .looping }

/-- The handler of a successful read of `chunk`. -/
def doReadHandler (s : Receiver C) (chunk : Bytes) : Receiver C :=
  let buffer := s.buffer.write s.unparsedBytes chunk
  let n := SizeT.add chunk.length s.unparsedBytes
  s.afterLoop buffer n (frameLoop read buffer n (n + 1) s.calls 0)

/-- The next chunk of the stream: a connection being closed reads no more. -/
def receive (s : Receiver C) (chunk : Bytes) : Receiver C :=
  match s.status with
  | .reading => s.doReadHandler read chunk
  | _ => s

/-- The space `do_read` offers to `async_read_some`. -/
def free (s : Receiver C) : Nat := SizeT.sub bufferSize s.unparsedBytes

/-- Each chunk read is nonempty and fits the free part of the buffer at its turn. -/
def Fits (s : Receiver C) : List Bytes → Prop
  | [] => True
  | chunk :: chunks =>
    (s.status = .reading → chunk ≠ [] ∧ chunk.length ≤ s.free) ∧ Fits (s.receive read chunk) chunks

instance decidableFits : (s : Receiver C) → (chunks : List Bytes) → Decidable (Fits read s chunks)
  | _, [] => .isTrue trivial
  | s, chunk :: chunks =>
    have := decidableFits (s.receive read chunk) chunks
    inferInstanceAs (Decidable ((s.status = .reading → chunk ≠ [] ∧ chunk.length ≤ s.free) ∧
      Fits read (s.receive read chunk) chunks))

/-- What can be seen of a connection: its dispatcher calls, where it stands in
the stream and its status. `none` when the handler does not return. -/
def outcome (s : Receiver C) : Option (Outcome UInt8 C FrameError) :=
  match s.status with
  | .reading => some ⟨s.calls, s.consumed, .reading (s.buffer.slice 0 s.unparsedBytes)⟩
  | .closing e => some ⟨s.calls, s.consumed, .closed e⟩
  | .looping => none

end Receiver

end ConfigServer
