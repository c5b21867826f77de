/-
The handler of `do_read` is an incremental parser: whatever the chunks, it
dispatches the frames the reference parser takes from the whole stream and
stops where it stops (`receive_reference`). A stream of serialized commands
therefore comes out as those commands (`receive_commands`).
-/
import ConfigServer.ProtocolFacts
import ConfigServer.Receive

namespace ConfigServer

open LittleEndian Framing Buffer

namespace Receiver

variable {C : Type} (read : Bytes → Except String C)

/-! ## The reference parser -/

/-- The next frame at the front of a stream: four bytes of length, the length
checked, then the payload parsed. -/
def frameFront (bs : Bytes) : Front C FrameError :=
  if bs.length < msgSizeBytes then .more
  else
    let msgSize := leNat (bs.take msgSizeBytes)
    if msgSize < msgSizeBytes ∨ msgSize > maxMessageSize then .bad (.invalidMessageSize msgSize)
    else if bs.length < msgSize then .more
    else
      match read ((bs.take msgSize).drop msgSizeBytes) with
      | .error e => .bad (.readError e)
      | .ok call => .frame call msgSize

variable {read}

/-! The five answers of `frameFront`, each with the test that leads to it. -/

theorem frameFront_short {bs : Bytes} (h : bs.length < msgSizeBytes) : frameFront read bs = .more := by
  simp only [frameFront, if_pos h]

section
variable {bs : Bytes} {msgSize : Nat} (hlen : msgSizeBytes ≤ bs.length)
  (hsize : leNat (bs.take msgSizeBytes) = msgSize)
include hlen hsize

theorem frameFront_size (h : msgSize < msgSizeBytes ∨ msgSize > maxMessageSize) :
    frameFront read bs = .bad (.invalidMessageSize msgSize) := by
  simp only [frameFront, if_neg (Nat.not_lt.2 hlen), hsize, if_pos h]

variable (h : ¬ (msgSize < msgSizeBytes ∨ msgSize > maxMessageSize))
include h

theorem frameFront_incomplete (hpart : bs.length < msgSize) : frameFront read bs = .more := by
  simp only [frameFront, if_neg (Nat.not_lt.2 hlen), hsize, if_neg h, if_pos hpart]

theorem frameFront_error (hfull : msgSize ≤ bs.length) {e : String}
    (hread : read ((bs.take msgSize).drop msgSizeBytes) = .error e) :
    frameFront read bs = .bad (.readError e) := by
  simp only [frameFront, if_neg (Nat.not_lt.2 hlen), hsize, if_neg h, if_neg (Nat.not_lt.2 hfull), hread]

theorem frameFront_ok (hfull : msgSize ≤ bs.length) {call : C}
    (hread : read ((bs.take msgSize).drop msgSizeBytes) = .ok call) :
    frameFront read bs = .frame call msgSize := by
  simp only [frameFront, if_neg (Nat.not_lt.2 hlen), hsize, if_neg h, if_neg (Nat.not_lt.2 hfull), hread]

end

theorem frameFront_frame {bs : Bytes} {call : C} {n : Nat} (h : frameFront read bs = .frame call n) :
    msgSizeBytes ≤ n ∧ n ≤ bs.length := by
  by_cases hshort : bs.length < msgSizeBytes
  · rw [frameFront_short hshort] at h
    cases h
  have hlen := Nat.not_lt.1 hshort
  by_cases hbad : leNat (bs.take msgSizeBytes) < msgSizeBytes ∨ leNat (bs.take msgSizeBytes) > maxMessageSize
  · rw [frameFront_size hlen rfl hbad] at h
    cases h
  by_cases hpart : bs.length < leNat (bs.take msgSizeBytes)
  · rw [frameFront_incomplete hlen rfl hbad hpart] at h
    cases h
  have hfull := Nat.not_lt.1 hpart
  cases hread : read ((bs.take (leNat (bs.take msgSizeBytes))).drop msgSizeBytes) with
  | error e =>
    rw [frameFront_error hlen rfl hbad hfull hread] at h
    cases h
  | ok call' =>
    rw [frameFront_ok hlen rfl hbad hfull hread] at h
    cases h
    simp only [not_or, not_lt] at hbad
    exact ⟨hbad.1, hfull⟩

/-- More input does not change an answer other than `more`. -/
theorem frameFront_append {bs : Bytes} (t : Bytes) (h : frameFront read bs ≠ .more) :
    frameFront read (bs ++ t) = frameFront read bs := by
  have hlen : msgSizeBytes ≤ bs.length := by
    by_contra hshort
    exact h (frameFront_short (Nat.not_le.1 hshort))
  have hlen' : msgSizeBytes ≤ (bs ++ t).length := by simp only [List.length_append]; omega
  have hsize : leNat ((bs ++ t).take msgSizeBytes) = leNat (bs.take msgSizeBytes) := by
    rw [List.take_append_of_le_length hlen]
  by_cases hbad : leNat (bs.take msgSizeBytes) < msgSizeBytes ∨ leNat (bs.take msgSizeBytes) > maxMessageSize
  · rw [frameFront_size hlen rfl hbad, frameFront_size hlen' hsize hbad]
  have hfull : leNat (bs.take msgSizeBytes) ≤ bs.length := by
    by_contra hpart
    exact h (frameFront_incomplete hlen rfl hbad (Nat.not_le.1 hpart))
  have hfull' : leNat (bs.take msgSizeBytes) ≤ (bs ++ t).length := by
    simp only [List.length_append]; omega
  have htake : (bs ++ t).take (leNat (bs.take msgSizeBytes)) = bs.take (leNat (bs.take msgSizeBytes)) :=
    List.take_append_of_le_length hfull
  cases hread : read ((bs.take (leNat (bs.take msgSizeBytes))).drop msgSizeBytes) with
  | error e =>
    rw [frameFront_error hlen rfl hbad hfull hread,
      frameFront_error hlen' hsize hbad hfull' (by rw [htake, hread])]
  | ok call =>
    rw [frameFront_ok hlen rfl hbad hfull hread,
      frameFront_ok hlen' hsize hbad hfull' (by rw [htake, hread])]

variable (read)

/-- The frames of the protocol, as a way to cut a stream. -/
def frames : Cutter UInt8 C FrameError where
  front := frameFront read
  front_nil := by simp [frameFront, msgSizeBytes]
  size_pos h := by
    have := (frameFront_frame h).1
    unfold msgSizeBytes at this
    omega
  size_le h := (frameFront_frame h).2
  frame_append t h := by rw [frameFront_append t (by rw [h]; simp), h]
  bad_append t h := by rw [frameFront_append t (by rw [h]; simp), h]

/-- **The reference parser**: frames taken from the whole stream until one is bad or incomplete. -/
def reference (stream : Bytes) : Outcome UInt8 C FrameError := (frames read).parse stream

/-! ## The frame loop is the reference parser -/

variable {read}

/-- How the loop ends when the reference parser, on the bytes from `offset` on, ends as `o`. -/
def exitOf (calls : List C) (offset : Nat) (o : Outcome UInt8 C FrameError) : LoopExit C :=
  match o.status with
  | .reading _ => .stopped (calls ++ o.items) (offset + o.used)
  | .closed e => .failed (calls ++ o.items) (offset + o.used) e

/-- **One iteration.** What it does is what the front of the valid bytes from `offset` on asks for. -/
theorem frameStep_front (buffer : Buffer) {n offset : Nat} (hn : n < 2 ^ 63) (hoff : offset ≤ n) :
    frameStep read buffer n offset =
      match frameFront read (buffer.slice offset n) with
      | .more => .stopped
      | .bad e => .failed e
      | .frame call size => .advance call (offset + size) := by
  have hsub : SizeT.sub n offset = n - offset := SizeT.sub_eq hoff (by unfold SizeT.modulus; omega)
  have hbytes : (buffer.slice offset n).length = n - offset := slice_length ..
  have htake : ∀ {m}, m ≤ n - offset →
      buffer.slice offset (offset + m) = (buffer.slice offset n).take m := by
    intro m hm
    rw [slice_take buffer (Nat.le_add_right offset m) (show offset + m ≤ n by omega),
      Nat.add_sub_cancel_left]
  unfold frameStep
  rw [hsub]
  by_cases hhead : n - offset ≥ msgSizeBytes
  · have hlen : msgSizeBytes ≤ (buffer.slice offset n).length := by omega
    simp only [if_pos hhead, htake hhead]
    generalize hsize : leNat ((buffer.slice offset n).take msgSizeBytes) = msgSize
    by_cases hbad : msgSize < msgSizeBytes ∨ msgSize > maxMessageSize
    · rw [if_pos hbad, frameFront_size hlen hsize hbad]
    rw [if_neg hbad]
    by_cases hpart : n - offset < msgSize
    · rw [if_pos hpart, frameFront_incomplete hlen hsize hbad (by omega)]
    rw [if_neg hpart]
    have hfull : msgSize ≤ (buffer.slice offset n).length := by omega
    have hsizes := hbad
    simp only [not_or, not_lt] at hsizes
    have hpayload : buffer.slice (offset + msgSizeBytes) (offset + msgSize) =
        ((buffer.slice offset n).take msgSize).drop msgSizeBytes := by
      rw [slice_drop buffer (Nat.le_add_right offset msgSizeBytes)
          (show offset + msgSizeBytes ≤ offset + msgSize by omega),
        Nat.add_sub_cancel_left, htake (by omega)]
    rw [hpayload]
    cases hread : read (((buffer.slice offset n).take msgSize).drop msgSizeBytes) with
    | error e => rw [frameFront_error hlen hsize hbad hfull hread]
    | ok call =>
      have hadd : SizeT.add offset msgSize = offset + msgSize :=
        SizeT.add_eq (by unfold SizeT.modulus; omega)
      rw [frameFront_ok hlen hsize hbad hfull hread, hadd]
  · rw [if_neg hhead, frameFront_short (by omega)]

/-- The loop from `offset` on ends as the reference parser does on the bytes from there on. -/
theorem frameLoop_parse (buffer : Buffer) {n : Nat} (hn : n < 2 ^ 63) (fuel : Nat) (calls : List C)
    (offset : Nat) (hoff : offset ≤ n) (hfuel : n - offset < fuel) :
    frameLoop read buffer n fuel calls offset =
      exitOf calls offset ((frames read).parse (buffer.slice offset n)) := by
  induction fuel generalizing calls offset with
  | zero => omega
  | succ fuel ih =>
    rw [frameLoop, frameStep_front buffer hn hoff]
    cases hfront : frameFront read (buffer.slice offset n) with
    | more =>
      rw [Cutter.parse_more (c := frames read) hfront]
      simp [exitOf]
    | bad e =>
      rw [Cutter.parse_bad (c := frames read) hfront]
      simp [exitOf]
    | frame call size =>
      -- The loop goes on behind the frame, where the parser does.
      have hsize := (frameFront_frame hfront).2
      have hpos := (frames read).size_pos hfront
      rw [slice_length] at hsize
      have hdrop : (buffer.slice offset n).drop size = buffer.slice (offset + size) n := by
        rw [slice_drop buffer (Nat.le_add_right offset size) (show offset + size ≤ n by omega),
          Nat.add_sub_cancel_left]
      simp only []
      rw [ih (calls ++ [call]) (offset + size) (by omega) (by omega),
        Cutter.parse_frame (c := frames read) hfront, hdrop]
      simp only [exitOf, Outcome.andThen]
      split <;> simp [Nat.add_assoc, *]

/-! ## The handler continues the parse -/

/-- The receiver stands where the parse `o` does, and what it carries over is inside the buffer. -/
structure Tracks (s : Receiver C) (o : Outcome UInt8 C FrameError) : Prop where
  outcome : s.outcome = some o
  unparsed : s.unparsedBytes ≤ bufferSize

theorem free_eq {s : Receiver C} (h : s.unparsedBytes ≤ bufferSize) : s.free = bufferSize - s.unparsedBytes :=
  SizeT.sub_eq h (by decide)

/-- The valid bytes after a chunk arrived: those carried over, then the chunk. -/
theorem slice_received (buffer : Buffer) (unparsed : Nat) (chunk : Bytes) :
    (buffer.write unparsed chunk).slice 0 (chunk.length + unparsed) = buffer.slice 0 unparsed ++ chunk := by
  rw [← slice_append _ (Nat.zero_le unparsed) (Nat.le_add_left unparsed chunk.length),
    slice_write_before buffer (Nat.le_refl unparsed), Nat.add_comm chunk.length, slice_write_self]

theorem slice_memmove (buffer : Buffer) (offset n : Nat) :
    (buffer.memmove 0 offset (n - offset)).slice 0 (n - offset) =
      buffer.slice offset (offset + (n - offset)) := by
  have h := slice_write_self buffer 0 (buffer.slice offset (offset + (n - offset)))
  rwa [slice_length, Nat.add_sub_cancel_left, Nat.zero_add] at h

theorem doReadHandler_tracks {s : Receiver C} (hs : s.status = .reading)
    (hroom : s.unparsedBytes ≤ bufferSize) {chunk : Bytes} (hchunk : chunk.length ≤ s.free) :
    Tracks (s.doReadHandler read chunk)
      (Outcome.andThen ⟨s.calls, s.consumed, .reading []⟩
        ((frames read).parse (s.buffer.slice 0 s.unparsedBytes ++ chunk))) := by
  rw [free_eq hroom] at hchunk
  have hsize : bufferSize < 2 ^ 63 := by decide
  have hadd : SizeT.add chunk.length s.unparsedBytes = chunk.length + s.unparsedBytes :=
    SizeT.add_eq (by unfold SizeT.modulus; omega)
  have hdata := slice_received s.buffer s.unparsedBytes chunk
  have hloop := @frameLoop_parse C read (s.buffer.write s.unparsedBytes chunk)
    (chunk.length + s.unparsedBytes) (by omega) (chunk.length + s.unparsedBytes + 1) s.calls 0
    (Nat.zero_le _) (by omega)
  rw [hdata] at hloop
  simp only [doReadHandler, hadd, hloop]
  cases hstop : ((frames read).parse (s.buffer.slice 0 s.unparsedBytes ++ chunk)).status with
  | closed e =>
    exact ⟨by simp [exitOf, hstop, afterLoop, outcome, Outcome.andThen],
      by simpa [exitOf, hstop, afterLoop] using hroom⟩
  | reading p =>
    obtain ⟨hused, hp⟩ := Cutter.parse_pending hstop
    generalize (frames read).parse (s.buffer.slice 0 s.unparsedBytes ++ chunk) = o at hstop hused hp
    simp only [List.length_append, slice_length, Nat.sub_zero] at hused
    simp only [exitOf, hstop, afterLoop, Nat.zero_add]
    by_cases hleft : o.used < chunk.length + s.unparsedBytes
    · have hsub : SizeT.sub (chunk.length + s.unparsedBytes) o.used = chunk.length + s.unparsedBytes - o.used :=
        SizeT.sub_eq (by omega) (by unfold SizeT.modulus; omega)
      rw [if_pos hleft, hsub]
      have hbytes : ((s.buffer.write s.unparsedBytes chunk).memmove 0 o.used
          (chunk.length + s.unparsedBytes - o.used)).slice 0
            (chunk.length + s.unparsedBytes - o.used) = p := by
        rw [slice_memmove, Nat.add_sub_cancel' (Nat.le_of_lt hleft),
          slice_drop _ (Nat.zero_le o.used) (Nat.le_of_lt hleft), hdata, Nat.sub_zero, hp]
      exact ⟨by simp [outcome, hs, Outcome.andThen, hbytes, hstop], by simp only; omega⟩
    · have hnil : p = [] := by
        rw [hp]
        exact List.drop_eq_nil_of_le (by simp; omega)
      rw [if_neg hleft]
      exact ⟨by simp [outcome, hs, Outcome.andThen, hstop, hnil, slice], Nat.zero_le _⟩

/-- One chunk: the receiver follows the incremental parse. -/
theorem receive_tracks {s : Receiver C} {o : Outcome UInt8 C FrameError} (h : Tracks s o) {chunk : Bytes}
    (hchunk : s.status = .reading → chunk.length ≤ s.free) :
    Tracks (s.receive read chunk) ((frames read).feed o chunk) := by
  have ho := h.outcome
  cases hs : s.status with
  | reading =>
    simp only [outcome, hs, Option.some.injEq] at ho
    subst ho
    simp only [receive, hs, Cutter.feed]
    exact doReadHandler_tracks hs h.unparsed (hchunk hs)
  | closing e =>
    simp only [outcome, hs, Option.some.injEq] at ho
    subst ho
    simp only [receive, hs, Cutter.feed]
    exact h
  | looping => simp [outcome, hs] at ho

/-- Any chunks: the receiver follows the incremental parse to its end. -/
theorem receives_tracks {chunks : List Bytes} {s : Receiver C} {o : Outcome UInt8 C FrameError}
    (h : Tracks s o) (hfits : Fits read s chunks) :
    Tracks (chunks.foldl (receive read) s) (chunks.foldl (frames read).feed o) := by
  induction chunks generalizing s o with
  | nil => exact h
  | cons chunk chunks ih => exact ih (receive_tracks h fun hs => (hfits.1 hs).2) hfits.2

theorem reference_nil : Tracks ({} : Receiver C) (reference read []) := by
  have hnil : reference read [] = ⟨[], 0, .reading []⟩ := Cutter.parse_more (frames read).front_nil
  rw [hnil]
  exact ⟨rfl, Nat.zero_le _⟩

/-- **Chunk independence.** The connection ends where the reference parser
does on the whole stream. -/
theorem receives_outcome {chunks : List Bytes} (hfits : Fits read {} chunks) :
    (chunks.foldl (receive read) {}).outcome = some (reference read chunks.flatten) := by
  have hnil : Tracks ({} : Receiver C) (reference read []) := reference_nil
  have h := receives_tracks hnil hfits
  rw [reference, Cutter.feed_flatten, List.nil_append] at h
  exact h.outcome

/-- Frames that stand alone as good frames are taken one after another off any stream they begin. -/
theorem reference_frames {good : List (Bytes × C)}
    (h : ∀ f ∈ good, frameFront read f.1 = .frame f.2 f.1.length) (t : Bytes) :
    reference read ((good.map (·.1)).flatten ++ t) =
      Outcome.andThen ⟨good.map (·.2), (good.map (·.1)).flatten.length, .reading t⟩ (reference read t) :=
  Cutter.parse_frames (c := frames read) (fun f hf t => (frames read).frame_append t (h f hf)) t

/-! ## Any stream -/

/-- **The handler of `do_read` is the reference parser.** Whatever the chunks
of a stream, the dispatcher calls, the position in the stream and the status
at the end are those of the reference parser on the whole stream; so they do
not depend on how the stream is cut, and with a bad frame behind good ones the
good ones are dispatched, each once, and nothing else. -/
theorem receive_reference (read : Bytes → Except String C) :
    (∀ chunks, Fits read {} chunks →
      (chunks.foldl (receive read) {}).outcome = some (reference read chunks.flatten)) ∧
    (∀ chunks chunks', Fits read {} chunks → Fits read {} chunks' → chunks.flatten = chunks'.flatten →
      (chunks.foldl (receive read) {}).outcome = (chunks'.foldl (receive read) {}).outcome) ∧
    (∀ (chunks : List Bytes) (good : List (Bytes × C)) (tail : Bytes) (e : FrameError), Fits read {} chunks →
      (∀ f ∈ good, frameFront read f.1 = .frame f.2 f.1.length) → frameFront read tail = .bad e →
      chunks.flatten = (good.map (·.1)).flatten ++ tail →
      (chunks.foldl (receive read) {}).outcome =
        some ⟨good.map (·.2), (good.map (·.1)).flatten.length, .closed e⟩) := by
  refine ⟨fun chunks h => receives_outcome h, ?_, ?_⟩
  · intro chunks chunks' h h' heq
    rw [receives_outcome h, receives_outcome h', heq]
  · intro chunks good tail e h hgood hbad hcut
    have htail : reference read tail = ⟨[], 0, .closed e⟩ := Cutter.parse_bad (c := frames read) hbad
    rw [receives_outcome h, hcut, reference_frames hgood, htail]
    simp [Outcome.andThen]

/-- A SET frame and a frame of an unknown type, cut inside the first length
prefix and between the frames. -/
theorem receive_reference_cut :
    (([[15, 0], [0, 0, 1, 1, 0, 0, 0, 97, 1, 0, 0, 0, 98], [5, 0, 0, 0, 7]] : List Bytes).foldl
        (receive readServer) {}).outcome =
      some ⟨[.set ⟨[97], [98]⟩], 15, .closed (.readError "unknown command type")⟩ ∧
    (([[15, 0], [0, 0, 1, 1, 0, 0, 0, 97, 1, 0, 0, 0, 98], [5, 0, 0, 0, 7]] : List Bytes).foldl
        (receive readServer) {}).outcome =
      (([[15, 0, 0], [0, 1, 1, 0, 0, 0, 97, 1, 0, 0, 0, 98, 5, 0, 0, 0, 7]] : List Bytes).foldl
        (receive readServer) {}).outcome := by
  refine ⟨?_, (receive_reference readServer).2.1 _ _ (by decide) (by decide) rfl⟩
  refine (receive_reference readServer).2.2 _
    [([15, 0, 0, 0, 1, 1, 0, 0, 0, 97, 1, 0, 0, 0, 98], .set ⟨[97], [98]⟩)] [5, 0, 0, 0, 7] _
    (by decide) ?_ rfl rfl
  intro f hf
  rw [List.mem_singleton.1 hf]
  rfl

/-! ## A stream of commands -/

/-- A message of at most `maxMessageSize` bytes made of a length prefix and a
payload that `read` accepts is a good frame. -/
theorem frameFront_message {payload : Bytes} {call : C} (hread : read payload = .ok call)
    (hsize : payload.length + 4 ≤ maxMessageSize) :
    frameFront read (leBytes 4 (payload.length + 4) ++ payload) =
      .frame call (leBytes 4 (payload.length + 4) ++ payload).length := by
  have hmax : maxMessageSize < 256 ^ 4 := by decide
  have hword : (leBytes 4 (payload.length + 4)).length = msgSizeBytes := leBytes_length 4 _
  have hlen : (leBytes 4 (payload.length + 4) ++ payload).length = payload.length + 4 := by
    rw [List.length_append, leBytes_length, Nat.add_comm]
  have hval : leNat ((leBytes 4 (payload.length + 4) ++ payload).take msgSizeBytes) = payload.length + 4 := by
    rw [List.take_left' hword, leNat_leBytes_of_lt (by omega)]
  rw [hlen]
  refine frameFront_ok (by rw [hlen]; exact Nat.le_add_left _ _) hval ?_ (by rw [hlen]) ?_
  · have hmin : msgSizeBytes ≤ payload.length + 4 := Nat.le_add_left _ _
    omega
  · rw [List.take_of_length_le (Nat.le_of_eq hlen), List.drop_left' hword, hread]

/-- Messages that are good frames, cut anyhow, are dispatched in order and leave nothing behind. -/
theorem receives_frames {chunks : List Bytes} {good : List (Bytes × C)} (hfits : Fits read {} chunks)
    (hgood : ∀ f ∈ good, frameFront read f.1 = .frame f.2 f.1.length)
    (hcut : chunks.flatten = (good.map (·.1)).flatten) :
    (chunks.foldl (receive read) {}).calls = good.map (·.2) ∧
      (chunks.foldl (receive read) {}).status = .reading ∧
      (chunks.foldl (receive read) {}).unparsedBytes = 0 := by
  have hnil : reference read [] = ⟨[], 0, .reading []⟩ := Cutter.parse_more (frames read).front_nil
  have h := receives_outcome hfits
  rw [hcut, ← List.append_nil (good.map (·.1)).flatten, reference_frames hgood, hnil] at h
  generalize chunks.foldl (receive read) {} = s at h
  unfold outcome at h
  split at h
  · next hs =>
    simp only [Outcome.andThen, Option.some.injEq, Outcome.mk.injEq, Status.reading.injEq,
      List.append_nil] at h
    refine ⟨h.1, hs, ?_⟩
    have := congrArg List.length h.2.2
    simpa using this
  · simp [Outcome.andThen] at h
  · cases h

theorem mapM_ok {α β : Type} {f : α → Except String β} {g : α → β} {as : List α} (h : ∀ a ∈ as, f a = .ok (g a)) :
    as.mapM f = .ok (as.map g) := by
  induction as with
  | nil => rfl
  | cons a as ih =>
    simp only [List.mapM_cons, h a List.mem_cons_self, ih fun b hb => h b (List.mem_cons_of_mem a hb),
      bind, Except.bind, pure, Except.pure, List.map_cons]

/-- Commands that are serialized to good frames are dispatched as those commands. -/
theorem receives_serialized {serialize : C → Except String MemoryWriter} {cmds : List C} (frame : C → Bytes)
    (hgood : ∀ c ∈ cmds, serialize c = .ok ⟨frame c⟩ ∧ frameFront read (frame c) = .frame c (frame c).length) :
    ∃ ws, cmds.mapM serialize = .ok ws ∧ ∀ chunks : List Bytes,
      chunks.flatten = (ws.map (·.buffer)).flatten → Fits read {} chunks →
      (chunks.foldl (receive read) {}).calls = cmds ∧
        (chunks.foldl (receive read) {}).status = .reading ∧
        (chunks.foldl (receive read) {}).unparsedBytes = 0 := by
  refine ⟨_, mapM_ok fun c hc => (hgood c hc).1, fun chunks hcut hfits => ?_⟩
  have hframes : ∀ f ∈ cmds.map fun c => (frame c, c), frameFront read f.1 = .frame f.2 f.1.length :=
    List.forall_mem_map.2 fun c hc => (hgood c hc).2
  have hbytes : (cmds.map fun c => (frame c, c)).map (·.1) =
      (cmds.map fun c => MemoryWriter.mk (frame c)).map (·.buffer) := by
    rw [List.map_map, List.map_map]
    rfl
  have hcalls : (cmds.map fun c => (frame c, c)).map (·.2) = cmds := by
    rw [List.map_map]
    exact List.map_id cmds
  rw [← hbytes] at hcut
  have h := receives_frames hfits hframes hcut
  rwa [hcalls] at h

/-- What a server's `read` checks of a command: a GET has a nonzero request id. -/
def ValidCall : ServerCall → Prop
  | .get cmd => cmd.requestId ≠ 0
  | .set _ => True

theorem serverCall_frame {c : ServerCall} {w : MemoryWriter} (hc : ValidCall c) (hw : c.serialize = .ok w)
    (hsize : w.buffer.length ≤ maxMessageSize) : frameFront readServer w.buffer = .frame c w.buffer.length := by
  have hgood : c.Good := by
    cases c with
    | get cmd => exact ⟨(getFormat.serialize_eq hw).1, hc⟩
    | set cmd => exact ⟨(setFormat.serialize_eq hw).1, trivial⟩
  rw [ServerCall.serialize_eq hw, ServerCall.frame_eq] at hsize ⊢
  rw [List.length_append, leBytes_length] at hsize
  have hmax : maxMessageSize < 2 ^ 63 := by decide
  exact frameFront_message ((readServer_ok (by omega)).2 ⟨hgood, rfl⟩) (by omega)

theorem response_frame {c : GetCommandResponse} {w : MemoryWriter} (hc : c.requestId ≠ 0)
    (hw : c.serialize = .ok w) (hsize : w.buffer.length ≤ maxMessageSize) :
    frameFront readClient w.buffer = .frame c w.buffer.length := by
  obtain ⟨hfits, hbuffer⟩ := responseFormat.serialize_eq hw
  rw [hbuffer, Format.frame] at hsize ⊢
  rw [List.length_append, leBytes_length] at hsize
  have hmax : maxMessageSize < 2 ^ 63 := by decide
  exact frameFront_message ((readClient_ok (by omega)).2 ⟨⟨hfits, hc⟩, rfl⟩) (by omega)

/-- A frame within the limit has strings that `serialize` can write. -/
theorem serverCall_serialize {c : ServerCall} (hsize : c.frame.length ≤ maxMessageSize) :
    c.serialize = .ok ⟨c.frame⟩ := by
  have hmax : maxMessageSize < 2 ^ 32 := by decide
  cases c with
  | get cmd =>
    rw [ServerCall.frame, getFormat.frame_length, getFormat, List.length_append, stringBytes_length] at hsize
    exact getFormat.serialize_fits (show cmd.key.length < 2 ^ 32 by omega)
  | set cmd =>
    rw [ServerCall.frame, setFormat.frame_length, setFormat, List.length_append, stringBytes_length,
      stringBytes_length] at hsize
    exact setFormat.serialize_fits (show cmd.key.length < 2 ^ 32 ∧ cmd.value.length < 2 ^ 32 by omega)

theorem response_serialize {c : GetCommandResponse} (hsize : (responseFormat.frame c).length ≤ maxMessageSize) :
    c.serialize = .ok ⟨responseFormat.frame c⟩ := by
  have hmax : maxMessageSize < 2 ^ 32 := by decide
  rw [responseFormat.frame_length] at hsize
  simp only [responseFormat, List.length_append, stringBytes_length] at hsize
  exact responseFormat.serialize_fits (show c.key.length < 2 ^ 32 ∧ c.value.length < 2 ^ 32 by omega)

/-- **Commands sent are the commands dispatched**, towards the server and
towards the client. Commands whose messages are within the limit are all
serialized, and however the stream of their serialized forms is cut, they come out
with the same fields, in the same order, and nothing is lost or left behind. -/
theorem receive_commands :
    (∀ cmds : List ServerCall, (∀ c ∈ cmds, ValidCall c ∧ c.frame.length ≤ maxMessageSize) →
      ∃ ws, cmds.mapM ServerCall.serialize = .ok ws ∧ ∀ chunks : List Bytes,
        chunks.flatten = (ws.map (·.buffer)).flatten → Fits readServer {} chunks →
        (chunks.foldl (receive readServer) {}).calls = cmds ∧
          (chunks.foldl (receive readServer) {}).status = .reading ∧
          (chunks.foldl (receive readServer) {}).unparsedBytes = 0) ∧
    (∀ cmds : List GetCommandResponse,
      (∀ c ∈ cmds, c.requestId ≠ 0 ∧ (responseFormat.frame c).length ≤ maxMessageSize) →
      ∃ ws, cmds.mapM GetCommandResponse.serialize = .ok ws ∧ ∀ chunks : List Bytes,
        chunks.flatten = (ws.map (·.buffer)).flatten → Fits readClient {} chunks →
        (chunks.foldl (receive readClient) {}).calls = cmds ∧
          (chunks.foldl (receive readClient) {}).status = .reading ∧
          (chunks.foldl (receive readClient) {}).unparsedBytes = 0) := by
  constructor
  · intro cmds hcmds
    refine receives_serialized ServerCall.frame fun c hc => ?_
    obtain ⟨hvalid, hsize⟩ := hcmds c hc
    have hser := serverCall_serialize hsize
    exact ⟨hser, serverCall_frame hvalid hser hsize⟩
  · intro cmds hcmds
    refine receives_serialized responseFormat.frame fun c hc => ?_
    obtain ⟨hid, hsize⟩ := hcmds c hc
    have hser := response_serialize hsize
    exact ⟨hser, response_frame hid hser hsize⟩

/-- A GET of "k" and a SET of it to "v" in three chunks, and the response to a GET of it in two. -/
theorem receive_commands_get_set :
    (([[12, 0, 0], [0, 0, 1, 0, 0, 0, 107, 1, 0, 15], [0, 0, 0, 1, 1, 0, 0, 0, 107, 1, 0, 0, 0, 118]] :
      List Bytes).foldl (receive readServer) {}).calls = [.get ⟨[107], 1⟩, .set ⟨[107], [118]⟩] ∧
    (([[33, 0, 0, 0, 2, 1, 0, 0, 0, 107, 1, 0, 3, 0, 0, 0],
      [0, 0, 0, 0, 2, 0, 0, 0, 0, 0, 0, 0, 1, 0, 0, 0, 118]] : List Bytes).foldl (receive readClient) {}).calls =
      [⟨[107], 1, 3, 2, [118]⟩] := by
  constructor
  · obtain ⟨ws, hws, h⟩ := receive_commands.1 [.get ⟨[107], 1⟩, .set ⟨[107], [118]⟩] (by
      intro c hc
      simp only [List.mem_cons, List.not_mem_nil, or_false] at hc
      rcases hc with rfl | rfl
      · exact ⟨show (1 : UInt16) ≠ 0 by decide, by decide⟩
      · exact ⟨trivial, by decide⟩)
    have hser : [ServerCall.get ⟨[107], 1⟩, .set ⟨[107], [118]⟩].mapM ServerCall.serialize =
        .ok [⟨[12, 0, 0, 0, 0, 1, 0, 0, 0, 107, 1, 0]⟩,
          ⟨[15, 0, 0, 0, 1, 1, 0, 0, 0, 107, 1, 0, 0, 0, 118]⟩] := rfl
    rw [hser] at hws
    cases hws
    refine (h _ ?_ ?_).1
    · rfl
    · decide
  · obtain ⟨ws, hws, h⟩ := receive_commands.2 [⟨[107], 1, 3, 2, [118]⟩] (by
      intro c hc
      rw [List.mem_singleton.1 hc]
      exact ⟨show (1 : UInt16) ≠ 0 by decide, by decide⟩)
    have hser : [(⟨[107], 1, 3, 2, [118]⟩ : GetCommandResponse)].mapM GetCommandResponse.serialize =
        .ok [⟨[33, 0, 0, 0, 2, 1, 0, 0, 0, 107, 1, 0, 3, 0, 0, 0, 0, 0, 0, 0, 2, 0, 0, 0, 0, 0, 0, 0,
          1, 0, 0, 0, 118]⟩] := rfl
    rw [hser] at hws
    cases hws
    refine (h _ ?_ ?_).1
    · rfl
    · decide

end Receiver

end ConfigServer
