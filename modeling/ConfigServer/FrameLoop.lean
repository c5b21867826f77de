/-
The bounds the handler of `do_read` works within. Its loop stays inside the
bytes received and moves on by at least a length field each time, so no
subtraction wraps around and the loop ends. What it leaves for the next read
is less than one frame, so the next read is offered most of the buffer.
-/
import ConfigServer.Lib.Runs
import ConfigServer.ReceiveFacts

namespace ConfigServer.Receiver

open Framing Runs LittleEndian

variable {C : Type} (read : Bytes → Except String C)

/-! ## The loop -/

/-- The offsets at which the loop over `n` valid bytes starts an iteration. -/
inductive LoopAt (buffer : Buffer) (n : Nat) : Nat → Prop
  | start : LoopAt buffer n 0
  | next {offset offset' : Nat} {call : C} (h : LoopAt buffer n offset)
    (hstep : frameStep read buffer n offset = .advance call offset') : LoopAt buffer n offset'

/-- What an iteration copies out of the buffer, from and up to: the length
field, and the payload of a frame that is there in full. -/
def copied (buffer : Buffer) (n offset : Nat) : List (Nat × Nat) :=
  if SizeT.sub n offset ≥ msgSizeBytes then
    let msgSize := leNat (buffer.slice offset (offset + msgSizeBytes))
    (offset, offset + msgSizeBytes) ::
      if msgSize < msgSizeBytes ∨ msgSize > maxMessageSize ∨ SizeT.sub n offset < msgSize then []
      else [(offset + msgSizeBytes, offset + msgSize)]
  else
    []

/-- An iteration at `offset` stays within the `n` valid bytes. -/
structure IterationSafe (buffer : Buffer) (n offset : Nat) : Prop where
  offset_le : offset ≤ n
  /-- The subtraction does not wrap around. -/
  sub_eq : SizeT.sub n offset = n - offset
  copied_le : ∀ part ∈ copied buffer n offset, part.1 ≤ part.2 ∧ part.2 ≤ n
  /-- It looks at no other part of the buffer than the ones it copies. -/
  copied_only : ∀ buffer', (∀ part ∈ copied buffer n offset,
    Buffer.slice buffer' part.1 part.2 = buffer.slice part.1 part.2) →
      frameStep read buffer' n offset = frameStep read buffer n offset
  advances : ∀ call offset', frameStep read buffer n offset = .advance call offset' →
    offset + msgSizeBytes ≤ offset' ∧ offset' ≤ n

variable {read}

theorem frameStep_advance {buffer : Buffer} {n offset offset' : Nat} {call : C} (hn : n < 2 ^ 63)
    (hoff : offset ≤ n) (h : frameStep read buffer n offset = .advance call offset') :
    offset + msgSizeBytes ≤ offset' ∧ offset' ≤ n := by
  rw [frameStep_front buffer hn hoff] at h
  cases hfront : frameFront read (buffer.slice offset n) with
  | more =>
    rw [hfront] at h
    cases h
  | bad e =>
    rw [hfront] at h
    cases h
  | frame call' size =>
    rw [hfront] at h
    cases h
    obtain ⟨hmin, hmax⟩ := frameFront_frame hfront
    rw [Buffer.slice_length] at hmax
    omega

theorem LoopAt.le {buffer : Buffer} {n offset : Nat} (hn : n < 2 ^ 63) (h : LoopAt read buffer n offset) :
    offset ≤ n := by
  induction h with
  | start => exact Nat.zero_le n
  | next h hstep ih => exact (frameStep_advance hn ih hstep).2

theorem frameStep_copied (read : Bytes → Except String C) {buffer buffer' : Buffer} {n offset : Nat}
    (h : ∀ part ∈ copied buffer n offset, Buffer.slice buffer' part.1 part.2 = buffer.slice part.1 part.2) :
    frameStep read buffer' n offset = frameStep read buffer n offset := by
  unfold copied at h
  unfold frameStep
  split
  · next hhead =>
    rw [if_pos hhead] at h
    have hlength := h _ List.mem_cons_self
    dsimp only at hlength ⊢
    rw [hlength]
    generalize leNat (buffer.slice offset (offset + msgSizeBytes)) = msgSize at h
    split
    · rfl
    · next hsize =>
      split
      · rfl
      · next hpart =>
        have hpayload := h (offset + msgSizeBytes, offset + msgSize) (by simp [hsize, hpart])
        rw [hpayload]
  · rfl

/-- Every iteration the loop comes to is safe. -/
theorem LoopAt.safe {buffer : Buffer} {n offset : Nat} (hn : n < 2 ^ 63) (h : LoopAt read buffer n offset) :
    IterationSafe read buffer n offset := by
  have hoff := h.le hn
  have hsub : SizeT.sub n offset = n - offset := SizeT.sub_eq hoff (by unfold SizeT.modulus; omega)
  refine ⟨hoff, hsub, fun part hpart => ?_, fun _ hsame => frameStep_copied read hsame,
    fun call offset' hstep => frameStep_advance hn hoff hstep⟩
  unfold copied at hpart
  rw [hsub] at hpart
  split at hpart
  · next hhead =>
    rcases List.mem_cons.1 hpart with rfl | hpart
    · exact ⟨Nat.le_add_right _ _, by omega⟩
    · split at hpart
      · cases hpart
      · next hsize =>
        simp only [not_or, not_lt] at hsize
        rw [List.mem_singleton.1 hpart]
        exact ⟨by omega, by omega⟩
  · cases hpart

/-! ## Over any chunks -/

variable (read)

/-- A read of `chunk` completes, into the space `do_read` has offered. -/
def readSome (s : Receiver C) (chunk : Bytes) : Option (Receiver C) :=
  if s.status = .reading ∧ chunk.length ≤ s.free then some (s.doReadHandler read chunk) else none

variable {read}

theorem run_readSome_tracks {chunks : List Bytes} {s s' : Receiver C} {o : Outcome UInt8 C FrameError}
    (h : Tracks s o) (hr : run (readSome read) s chunks = some s') :
    Tracks s' (chunks.foldl (frames read).feed o) := by
  induction chunks generalizing s o with
  | nil =>
    cases hr
    exact h
  | cons chunk chunks ih =>
    obtain ⟨s₁, hstep, hr⟩ := run_cons.1 hr
    unfold readSome at hstep
    split at hstep
    · next hchunk =>
      have hreceive : Tracks (s.receive read chunk) _ := receive_tracks h fun _ => hchunk.2
      rw [receive, hchunk.1] at hreceive
      exact ih (Option.some.inj hstep ▸ hreceive) hr
    · cases hstep

/-- After any chunks the receiver stands where the reference parser does. -/
theorem run_readSome_reference {chunks : List Bytes} {s : Receiver C}
    (hr : run (readSome read) {} chunks = some s) : Tracks s (reference read chunks.flatten) := by
  have hnil : Tracks ({} : Receiver C) (reference read []) := reference_nil
  have h := run_readSome_tracks hnil hr
  rwa [reference, Cutter.feed_flatten, List.nil_append] at h

/-- Bytes that are not enough for a frame are fewer than the longest frame has. -/
theorem length_lt_of_more {bs : Bytes} (h : frameFront read bs = .more) : bs.length < maxMessageSize := by
  by_contra hlong
  have hmax : msgSizeBytes ≤ maxMessageSize := by decide
  have hlen : msgSizeBytes ≤ bs.length := by omega
  by_cases hbad : leNat (bs.take msgSizeBytes) < msgSizeBytes ∨ leNat (bs.take msgSizeBytes) > maxMessageSize
  · rw [frameFront_size hlen rfl hbad] at h
    cases h
  · have hfull : leNat (bs.take msgSizeBytes) ≤ bs.length := by omega
    cases hread : read ((bs.take (leNat (bs.take msgSizeBytes))).drop msgSizeBytes) with
    | error e =>
      rw [frameFront_error hlen rfl hbad hfull hread] at h
      cases h
    | ok call =>
      rw [frameFront_ok hlen rfl hbad hfull hread] at h
      cases h

/-- What is carried over is the stream behind the frames dispatched, and less than a frame. -/
theorem Tracks.carried {s : Receiver C} {stream : Bytes} (h : Tracks s (reference read stream))
    (hs : s.status = .reading) :
    s.unparsedBytes < maxMessageSize ∧ s.buffer.slice 0 s.unparsedBytes = stream.drop s.consumed := by
  have ho := h.outcome
  simp only [Receiver.outcome, hs, Option.some.injEq] at ho
  have hstatus : ((frames read).parse stream).status = .reading (s.buffer.slice 0 s.unparsedBytes) :=
    congrArg Outcome.status ho.symm
  have hused : ((frames read).parse stream).used = s.consumed := congrArg Outcome.used ho.symm
  have hlen := length_lt_of_more (Cutter.front_pending hstatus)
  rw [Buffer.slice_length, Nat.sub_zero] at hlen
  exact ⟨hlen, by rw [← hused]; exact (Cutter.parse_pending hstatus).2⟩

theorem Tracks.not_looping {s : Receiver C} {o : Outcome UInt8 C FrameError} (h : Tracks s o) :
    s.status ≠ .looping := by
  intro hs
  have ho := h.outcome
  rw [Receiver.outcome, hs] at ho
  cases ho

/-- **The handler stays within its buffer.** After any chunks that fitted
their space: whatever fitting chunk comes next, the handler has at most the
buffer's size of valid bytes, each iteration its loop comes to is safe, and the
loop ends. While the connection reads on, what is carried over is less than a
frame, so more than `bufferSize - maxMessageSize` bytes are offered, and it is
the part of the stream not yet consumed. -/
theorem run_readSome {chunks : List Bytes} {s : Receiver C} (hr : run (readSome read) {} chunks = some s) :
    s.status ≠ .looping ∧
      (s.status = .reading →
        s.unparsedBytes < maxMessageSize ∧ bufferSize - maxMessageSize < s.free ∧ 0 < s.free ∧
          s.buffer.slice 0 s.unparsedBytes = chunks.flatten.drop s.consumed ∧
          ∀ chunk : Bytes, chunk.length ≤ s.free →
            SizeT.add chunk.length s.unparsedBytes ≤ bufferSize ∧
              (∀ offset, LoopAt read (s.buffer.write s.unparsedBytes chunk)
                  (SizeT.add chunk.length s.unparsedBytes) offset →
                IterationSafe read (s.buffer.write s.unparsedBytes chunk)
                  (SizeT.add chunk.length s.unparsedBytes) offset) ∧
              (s.doReadHandler read chunk).status ≠ .looping) := by
  have h := run_readSome_reference hr
  refine ⟨h.not_looping, ?_⟩
  intro hs
  obtain ⟨hlt, hpending⟩ := h.carried hs
  have hmax : maxMessageSize = 1048576 := rfl
  have hbuffer : bufferSize = 4194304 := rfl
  have hfree := free_eq h.unparsed
  refine ⟨hlt, by omega, by omega, hpending, fun chunk hchunk => ?_⟩
  have hadd : SizeT.add chunk.length s.unparsedBytes = chunk.length + s.unparsedBytes :=
    SizeT.add_eq (by unfold SizeT.modulus; omega)
  have hn : SizeT.add chunk.length s.unparsedBytes ≤ bufferSize := by omega
  refine ⟨hn, fun offset hloop => hloop.safe (by omega), ?_⟩
  exact (doReadHandler_tracks hs h.unparsed hchunk).not_looping

/-- A SET cut in two: most of the buffer is offered for the second part. -/
theorem run_readSome_cut :
    ∃ s : Receiver ServerCall, run (readSome readServer) {} [[15, 0], [0, 0, 1]] = some s ∧
      s.status ≠ .looping ∧
      (s.status = .reading →
        s.unparsedBytes < maxMessageSize ∧ bufferSize - maxMessageSize < s.free ∧ 0 < s.free ∧
          s.buffer.slice 0 s.unparsedBytes = ([[15, 0], [0, 0, 1]] : List Bytes).flatten.drop s.consumed ∧
          ∀ chunk : Bytes, chunk.length ≤ s.free →
            SizeT.add chunk.length s.unparsedBytes ≤ bufferSize ∧
              (∀ offset, LoopAt readServer (s.buffer.write s.unparsedBytes chunk)
                  (SizeT.add chunk.length s.unparsedBytes) offset →
                IterationSafe readServer (s.buffer.write s.unparsedBytes chunk)
                  (SizeT.add chunk.length s.unparsedBytes) offset) ∧
              (s.doReadHandler readServer chunk).status ≠ .looping) := by
  obtain ⟨s, hr⟩ : ∃ s : Receiver ServerCall, run (readSome readServer) {} [[15, 0], [0, 0, 1]] = some s :=
    ⟨_, rfl⟩
  exact ⟨s, hr, run_readSome hr⟩

end ConfigServer.Receiver
