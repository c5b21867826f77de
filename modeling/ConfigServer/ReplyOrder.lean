/-
The replies of a session are written in the order their GETs were received.
There is one read at a time: it is posted, outstanding, or being handled. So
the handlers run one after the other, each goes on where the parse of the
stream stands, and the responses are posted on the strand in the order of
their GETs. The strand keeps that order, and so does the send queue.
-/
import ConfigServer.FrameLoop
import ConfigServer.IdleClose
import ConfigServer.SendOrder
import ConfigServer.Session

namespace ConfigServer

open Framing Runs Receiver

/-! ## The strand keeps the order -/

/-- The message of a `send` task. -/
def Task.message? : Task → Option Message
  | .send cmd => some cmd
  | _ => none

/-- The frame a message is written as, if it can be. -/
def Message.frame? (cmd : Message) : Option Bytes := cmd.serialize.toOption.map MemoryWriter.buffer

namespace Connection

/-- The reads to come: those outstanding, and the `read` tasks posted. -/
def reads (c : Connection) : Nat := c.reading + c.strand.count .read

/-- The connection is open and `messages` have been posted on its strand: some
have been sent, the others are still there. -/
structure Sends (c : Connection) (messages : List Message) : Prop where
  split : ∃ done sent, Ordered c sent ∧ messages = done ++ c.strand.filterMap Task.message? ∧
    done.map Message.frame? = sent.map some

variable {c c' : Connection} {messages : List Message} {event : Event}

/-- What has been written comes first of what has been posted. -/
theorem Sends.written (h : Sends c messages) : c.written.map some <+: messages.map Message.frame? := by
  obtain ⟨done, sent, hordered, hmessages, hdone⟩ := h.split
  rw [hmessages, List.map_append, hdone, hordered.sent_eq, List.map_append, List.append_assoc]
  exact List.prefix_append _ _

/-- A step that leaves socket, queue, writes and `send` tasks alone. -/
theorem Sends.of_eq (h : Sends c messages) (hordered : ∀ sent, Ordered c sent → Ordered c' sent)
    (hposted : c'.strand.filterMap Task.message? = c.strand.filterMap Task.message?) : Sends c' messages := by
  obtain ⟨done, sent, ho, hmessages, hdone⟩ := h.split
  exact ⟨done, sent, hordered sent ho, by rw [hposted]; exact hmessages, hdone⟩

theorem Sends.post (h : Sends c messages) (cmd : Message) :
    Sends (c.post (.send cmd)) (messages ++ [cmd]) := by
  obtain ⟨done, sent, ho, hmessages, hdone⟩ := h.split
  refine ⟨done, sent, ho.post (by simp), ?_, hdone⟩
  simp [hmessages, Connection.post, Task.message?]

theorem filterMap_post_of_none {task : Task} (htask : task.message? = none) :
    (c.post task).strand.filterMap Task.message? = c.strand.filterMap Task.message? := by
  simp [Connection.post, htask]

theorem Sends.run {task : Task} {tasks : List Task} (h : Sends c messages)
    (hclose : c.closes .run = false) (hs : c.step .run = some c') (hstrand : c.strand = task :: tasks)
    (htask : ({ c with strand := tasks } : Connection).runTask task = some c') : Sends c' messages := by
  obtain ⟨done, sent, ho, hmessages, hdone⟩ := h.split
  have hordered := ho.step hclose hs
  have hrest : c'.strand = tasks := (runTask_frame htask).1
  cases task with
  | send cmd =>
    obtain ⟨writer, hw, -⟩ := runSend_fields (c := { c with strand := tasks }) ho.isOpen htask
    refine ⟨done ++ [cmd], sent ++ [writer.buffer], ?_, ?_, ?_⟩
    · simpa [sentBy, hstrand, hw, Except.toOption] using hordered
    · simp [hmessages, hstrand, hrest, Task.message?]
    · simp [hdone, Message.frame?, hw, Except.toOption]
  | _ =>
    refine ⟨done, sent, ?_, ?_, hdone⟩
    · simpa [sentBy, hstrand] using hordered
    · rw [hmessages, hstrand, hrest]
      rfl

theorem Sends.step (h : Sends c messages) (hout : event.outside = true) (hclose : c.closes event = false)
    (hs : c.step event = some c') : Sends c' messages := by
  have hordered (sent : List Bytes) (ho : Ordered c sent) (hnone : c.sentBy event = []) :
      Ordered c' sent := by
    simpa [hnone] using ho.step hclose hs
  cases (step_spec hs).2 with
  | readCall => cases hout
  | sendCall => cases hout
  | readDone hreading => cases hout
  | run hstrand htask => exact h.run hclose hs hstrand htask
  | writeDone hi => exact h.of_eq (hordered · · rfl) (filterMap_post_of_none rfl)
  | writeFailed hi => exact h.of_eq (hordered · · rfl) (filterMap_post_of_none rfl)
  | writeAborted hi => exact h.of_eq (hordered · · rfl) rfl
  | readFailed hreading => exact h.of_eq (hordered · · rfl) (filterMap_post_of_none rfl)
  | readEnded hreading => exact h.of_eq (hordered · · rfl) rfl
  | timerExpired harmed => exact h.of_eq (hordered · · rfl) rfl
  | timerHandler hqueued => exact h.of_eq (hordered · · rfl) (filterMap_post_of_none rfl)

/-! ## One read at a time -/

theorem reads_post {task : Task} (htask : task ≠ .read) : (c.post task).reads = c.reads := by
  simp [reads, Connection.post, List.count_append, htask]

theorem doRead_frame :
    c.doRead.strand = c.strand ∧ c.doRead.reads = c.reads + (if c.isOpen = true then 1 else 0) := by
  have h : c.runTask .read = some c.doRead := rfl
  obtain ⟨hstrand, hreading, -⟩ := runTask_frame h
  refine ⟨hstrand, ?_⟩
  simp only [reads, hstrand, hreading, true_and]
  omega

/-- A task adds no read to come; on an open connection a `read` task becomes an outstanding read. -/
theorem runTask_reads {task : Task} {tasks : List Task} (hstrand : c.strand = task :: tasks)
    (hs : ({ c with strand := tasks } : Connection).runTask task = some c') :
    c'.reads ≤ c.reads ∧ (c.isOpen = true → c'.reads = c.reads) := by
  obtain ⟨hrest, hreading, -⟩ := runTask_frame hs
  by_cases htask : task = .read
  · simp only [reads, hrest, hreading, hstrand, htask, true_and, List.count_cons_self]
    refine ⟨by split <;> omega, fun hopen => ?_⟩
    rw [if_pos hopen]
    omega
  · simp [reads, hrest, hreading, hstrand, htask, List.count_cons_of_ne]

/-- What happens outside the session starts no read. -/
theorem step_reads (hout : event.outside = true) (hs : c.step event = some c') : c'.reads ≤ c.reads := by
  cases (step_spec hs).2 with
  | readCall => cases hout
  | sendCall => cases hout
  | readDone hreading => cases hout
  | run hstrand htask => exact (runTask_reads hstrand htask).1
  | writeDone hi => exact Nat.le_of_eq (reads_post (c := { c with inFlight := _ }) (by simp))
  | writeFailed hi => exact Nat.le_of_eq (reads_post (c := { c with inFlight := _ }) (by simp))
  | writeAborted hi => exact Nat.le_refl _
  | readFailed hreading =>
    rw [reads_post (by simp)]
    simp only [reads]
    omega
  | readEnded hreading =>
    simp only [reads]
    omega
  | timerExpired harmed => exact Nat.le_refl _
  | timerHandler hqueued => exact Nat.le_of_eq (reads_post (c := { c with timer := _ }) (by simp))

end Connection

/-! ## The steps of a session -/

/-- What a reply repeats of its GET. -/
def GetCommand.tag (cmd : GetCommand) : Bytes × UInt16 := (cmd.key, cmd.requestId)

def GetCommandResponse.tag (response : GetCommandResponse) : Bytes × UInt16 :=
  (response.key, response.requestId)

/-- The command dispatched, if it is a GET. -/
def ServerCall.gets : ServerCall → List GetCommand
  | .get cmd => [cmd]
  | .set _ => []

/-- The command that a handler has in the dispatcher, if it is a GET. -/
def Handler.gets (h : Handler) : List GetCommand :=
  match h.inside with
  | some (call, _) => call.gets
  | none => []

namespace Session

inductive Step (s : Session) : Action → Session → Prop
  | strand {event : Connection.Event} {conn : Connection} (hout : event.outside = true)
    (hconn : s.conn.step event = some conn) : Step s (.strand event) { s with conn }
  | receive {chunk : Bytes} (hroom : chunk.length ≤ SizeT.sub bufferSize s.unparsedBytes)
    (hreading : 0 < s.conn.reading) :
    Step s (.receive chunk)
      { s with
        conn := { s.conn with reading := s.conn.reading - 1 }
        buffer := s.buffer.write s.unparsedBytes chunk
        handlers := s.handlers ++ [{ n := SizeT.add chunk.length s.unparsedBytes, offset := 0 }]
        received := s.received ++ chunk }
  | stop {i n offset : Nat} (hi : s.handlers[i]? = some ⟨n, offset, none⟩)
    (hstop : frameStep readServer s.buffer n offset = .stopped) :
    Step s (.iterate i) { s.carryOver n offset with conn := s.conn.doRead, handlers := s.handlers.eraseIdx i }
  | fail {i n offset : Nat} (hi : s.handlers[i]? = some ⟨n, offset, none⟩) :
    Step s (.iterate i) { s with conn := s.conn.post (.close .read), handlers := s.handlers.eraseIdx i }
  | dispatch {i n offset offset' : Nat} {call : ServerCall} {world : World}
    (hi : s.handlers[i]? = some ⟨n, offset, none⟩)
    (hframe : frameStep readServer s.buffer n offset = .advance call offset') :
    Step s (.iterate i)
      { s with
        handlers := s.handlers.set i ⟨n, offset', some (call, s.world.calls.length)⟩
        world
        calls := s.calls ++ [call] }
  | reply {i j n offset : Nat} {cmd : GetCommand} {response : GetCommandResponse}
    (hi : s.handlers[i]? = some ⟨n, offset, some (.get cmd, j)⟩) (htag : response.tag = cmd.tag) :
    Step s (.respond i) ({ s with handlers := s.handlers.set i { n, offset } }.send response)
  | setDone {i j n offset : Nat} {cmd : SetCommand}
    (hi : s.handlers[i]? = some ⟨n, offset, some (.set cmd, j)⟩) :
    Step s (.respond i) { s with handlers := s.handlers.set i { n, offset } }
  | store {action : ConfigServer.Action} {world : World} : Step s (.store action) { s with world }

theorem iterate_spec {s s' : Session} {i : Nat} (h : s.iterate i = some s') : Step s (.iterate i) s' := by
  unfold iterate at h
  split at h
  · next n offset hi =>
    split at h
    · next hstop =>
      cases h
      exact .stop hi hstop
    · cases h
      exact .fail hi
    · next call offset' hframe =>
      obtain ⟨world, -, rfl⟩ := Option.map_eq_some_iff.1 h
      exact .dispatch hi hframe
  · cases h

theorem respond_spec {s s' : Session} {i : Nat} (h : s.respond i = some s') : Step s (.respond i) s' := by
  unfold respond at h
  split at h
  · next call j n offset hi =>
    dsimp only at h
    split at h
    · cases h
      exact .reply hi rfl
    · cases h
      exact .reply hi rfl
    · cases h
      exact .setDone hi
    · cases h
  · cases h

theorem step_spec {s s' : Session} {action : Action} (h : s.step action = some s') : Step s action s' := by
  unfold step at h
  split at h
  · cases h
  · cases action with
    | strand event =>
      dsimp only at h
      split at h
      · next hout =>
        obtain ⟨conn, hconn, rfl⟩ := Option.map_eq_some_iff.1 h
        exact .strand hout hconn
      · cases h
    | receive chunk =>
      dsimp only [Session.receive] at h
      split at h
      · next hroom =>
        obtain ⟨conn, hconn, rfl⟩ := Option.map_eq_some_iff.1 h
        obtain ⟨hreading, rfl⟩ := Connection.completeRead_eq_some hconn
        exact .receive hroom hreading
      · cases h
    | iterate i => exact iterate_spec h
    | respond i => exact respond_spec h
    | store action =>
      obtain ⟨world, -, rfl⟩ := Option.map_eq_some_iff.1 h
      exact .store

/-! ## What holds between the steps -/

/-- `calls` are the frames the reference parser takes from the stream first, and
`rest` is the stream behind them. -/
def Taken (received : Bytes) (calls : List ServerCall) (rest : Bytes) : Prop :=
  ∃ used, reference readServer received =
    Outcome.andThen ⟨calls, used, .reading []⟩ ((frames readServer).parse rest)

/-- The bytes the session has still to parse are `rest`: they wait in the
buffer for the next read, or are in front of a handler. -/
structure Rests (s : Session) (rest : Bytes) : Prop where
  waiting : 0 < s.conn.reads → s.unparsedBytes ≤ bufferSize ∧ s.buffer.slice 0 s.unparsedBytes = rest
  handled {h : Handler} : h ∈ s.handlers →
    h.offset ≤ h.n ∧ h.n ≤ bufferSize ∧ s.buffer.slice h.offset h.n = rest

structure Orderly (s : Session) : Prop where
  sends : s.conn.Sends (s.replies.map .getResponse)
  /-- One read at most is to come or being handled. -/
  single : s.conn.reads + s.handlers.length ≤ 1
  answered : s.replies.map GetCommandResponse.tag ++ (s.handlers.flatMap Handler.gets).map GetCommand.tag =
    (s.calls.flatMap ServerCall.gets).map GetCommand.tag
  parsed : ∃ rest, Taken s.received s.calls rest ∧ s.Rests rest

variable {s s' : Session}

/-- The handler that takes a step is the only one, and no read is to come. -/
theorem Orderly.alone (h : s.Orderly) {i : Nat} {handler : Handler} (hi : s.handlers[i]? = some handler) :
    s.handlers = [handler] ∧ i = 0 ∧ s.conn.reads = 0 := by
  have hsingle := h.single
  have hlt := (List.getElem?_eq_some_iff.1 hi).1
  have hlength : s.handlers.length = 1 := by omega
  obtain ⟨only, honly⟩ := List.length_eq_one_iff.1 hlength
  have hzero : i = 0 := by omega
  subst hzero
  rw [honly, List.getElem?_cons_zero, Option.some.injEq] at hi
  exact ⟨by rw [honly, hi], rfl, by omega⟩

theorem Taken.receive {received rest : Bytes} {calls : List ServerCall} (h : Taken received calls rest)
    (chunk : Bytes) : Taken (received ++ chunk) calls (rest ++ chunk) := by
  obtain ⟨used, hreference⟩ := h
  refine ⟨used, ?_⟩
  have hfeed : reference readServer (received ++ chunk) =
      (frames readServer).feed (reference readServer received) chunk := Cutter.parse_append received chunk
  rw [hfeed, hreference, Cutter.feed_andThen, ← Cutter.parse_append]

theorem Taken.dispatch {received rest : Bytes} {calls : List ServerCall} {call : ServerCall} {size : Nat}
    (h : Taken received calls rest) (hfront : frameFront readServer rest = .frame call size) :
    Taken received (calls ++ [call]) (rest.drop size) := by
  obtain ⟨used, hreference⟩ := h
  refine ⟨used + size, ?_⟩
  rw [hreference, Cutter.parse_frame (c := frames readServer) hfront, ← Outcome.andThen_assoc]
  rfl

theorem Taken.dispatched {received rest : Bytes} {calls : List ServerCall} (h : Taken received calls rest) :
    calls <+: (reference readServer received).items := by
  obtain ⟨used, hreference⟩ := h
  rw [hreference]
  exact List.prefix_append calls _

/-- Once the handler has carried over the bytes from `offset` on, they are the ones that wait. -/
theorem carryOver_spec {n offset : Nat} (hoffset : offset ≤ n) (hn : n ≤ bufferSize) :
    ∃ buffer unparsedBytes, s.carryOver n offset = { s with buffer, unparsedBytes } ∧
      unparsedBytes ≤ bufferSize ∧ buffer.slice 0 unparsedBytes = s.buffer.slice offset n := by
  have hsize : bufferSize < SizeT.modulus := by decide
  unfold carryOver
  split
  · next hlt =>
    refine ⟨_, _, rfl, ?_⟩
    have hsub : SizeT.sub n offset = n - offset := SizeT.sub_eq hoffset (by omega)
    rw [hsub, slice_memmove, Nat.add_sub_cancel' hoffset]
    exact ⟨by omega, rfl⟩
  · next hge =>
    refine ⟨s.buffer, 0, rfl, Nat.zero_le _, ?_⟩
    have hlength : (s.buffer.slice offset n).length = 0 := by
      rw [Buffer.slice_length]
      omega
    exact (List.eq_nil_of_length_eq_zero hlength).symm

theorem orderly_start (world : World) : (start world).Orderly where
  sends := by
    refine ⟨[], [], ?_, rfl, rfl⟩
    exact Connection.ordered_init.post (by simp)
  single := by simp [start, Connection.reads, Connection.post]
  answered := rfl
  parsed := by
    refine ⟨[], ⟨0, ?_⟩, fun _ => ⟨Nat.zero_le _, rfl⟩, fun hmem => absurd hmem List.not_mem_nil⟩
    simp [reference, Outcome.andThen, start]

/-- The strand runs a task, or something completes, and no `close` is run. -/
theorem Orderly.strand (h : s.Orderly) {event : Connection.Event} {conn : Connection}
    (hout : event.outside = true) (hclose : s.conn.closes event = false)
    (hconn : s.conn.step event = some conn) : Orderly { s with conn } where
  sends := h.sends.step hout hclose hconn
  single := Nat.le_trans (Nat.add_le_add_right (Connection.step_reads hout hconn) _) h.single
  answered := h.answered
  parsed := by
    obtain ⟨rest, htaken, hrests⟩ := h.parsed
    have hreads := Connection.step_reads hout hconn
    exact ⟨rest, htaken, fun hpos => hrests.waiting (Nat.lt_of_lt_of_le hpos hreads), hrests.handled⟩

theorem Orderly.receive (h : s.Orderly) {chunk : Bytes}
    (hroom : chunk.length ≤ SizeT.sub bufferSize s.unparsedBytes) (hreading : 0 < s.conn.reading) :
    Orderly
      { s with
        conn := { s.conn with reading := s.conn.reading - 1 }
        buffer := s.buffer.write s.unparsedBytes chunk
        handlers := s.handlers ++ [{ n := SizeT.add chunk.length s.unparsedBytes, offset := 0 }]
        received := s.received ++ chunk } := by
  have hsize : 2 * bufferSize < SizeT.modulus := by decide
  have hsingle := h.single
  have hreads : 0 < s.conn.reads := Nat.lt_of_lt_of_le hreading (Nat.le_add_right _ _)
  have hnone : s.handlers = [] := List.eq_nil_of_length_eq_zero (by omega)
  have hlast : s.conn.reads = s.conn.reading - 1 + s.conn.strand.count .read + 1 := by
    simp only [Connection.reads]
    omega
  obtain ⟨rest, htaken, hrests⟩ := h.parsed
  obtain ⟨hunparsed, hslice⟩ := hrests.waiting hreads
  rw [SizeT.sub_eq hunparsed (by omega)] at hroom
  have hn : SizeT.add chunk.length s.unparsedBytes = chunk.length + s.unparsedBytes :=
    SizeT.add_eq (by omega)
  refine ⟨?_, ?_, ?_, rest ++ chunk, htaken.receive chunk, ?_, ?_⟩
  · exact h.sends.of_eq (fun sent ho => ho.of_eq ho.inv.readOver rfl rfl rfl) rfl
  · simp only [hnone, Connection.reads, List.nil_append, List.length_singleton]
    omega
  · have hanswered := h.answered
    rw [hnone] at hanswered ⊢
    exact hanswered
  · intro hpos
    simp only [Connection.reads] at hpos
    omega
  · intro handler hmem
    rw [hnone, hn] at hmem
    cases List.mem_singleton.1 hmem
    have hle : chunk.length + s.unparsedBytes ≤ bufferSize := by omega
    refine ⟨Nat.zero_le _, hle, ?_⟩
    rw [slice_received, hslice]

theorem Orderly.stop (h : s.Orderly) {i n offset : Nat} (hi : s.handlers[i]? = some ⟨n, offset, none⟩) :
    Orderly { s.carryOver n offset with conn := s.conn.doRead, handlers := s.handlers.eraseIdx i } := by
  obtain ⟨hhandlers, rfl, hreads⟩ := h.alone hi
  obtain ⟨rest, htaken, hrests⟩ := h.parsed
  obtain ⟨hoffset, hn, hslice⟩ := hrests.handled (List.mem_of_getElem? hi)
  obtain ⟨buffer, unparsedBytes, hcarry, hunparsed, hwaiting⟩ := carryOver_spec (s := s) hoffset hn
  obtain ⟨hstrand, hnext⟩ := Connection.doRead_frame (c := s.conn)
  have hreads' : s.conn.doRead.reads ≤ 1 := by
    rw [hnext, hreads]
    split <;> omega
  have hanswered := h.answered
  rw [hcarry]
  rw [hhandlers] at hanswered ⊢
  refine ⟨?_, by simpa using hreads', hanswered, rest, htaken, fun _ => ⟨hunparsed, ?_⟩, ?_⟩
  · exact h.sends.of_eq (fun sent ho => ho.doRead) (congrArg _ hstrand)
  · exact hwaiting.trans hslice
  · exact fun hmem => nomatch hmem

theorem Orderly.fail (h : s.Orderly) {i n offset : Nat} (hi : s.handlers[i]? = some ⟨n, offset, none⟩) :
    Orderly { s with conn := s.conn.post (.close .read), handlers := s.handlers.eraseIdx i } := by
  obtain ⟨hhandlers, rfl, hreads⟩ := h.alone hi
  obtain ⟨rest, htaken, hrests⟩ := h.parsed
  have hreads' : (s.conn.post (.close .read)).reads = 0 := (Connection.reads_post (by simp)).trans hreads
  have hanswered := h.answered
  rw [hhandlers] at hanswered ⊢
  refine ⟨?_, by simp [hreads'], hanswered, rest, htaken, ?_, fun hmem => nomatch hmem⟩
  · exact h.sends.of_eq (fun sent ho => ho.post (by simp)) (Connection.filterMap_post_of_none rfl)
  · intro hpos
    exact absurd hreads' (Nat.ne_of_gt hpos)

theorem Orderly.dispatch (h : s.Orderly) {i n offset offset' : Nat} {call : ServerCall} {world : World}
    (hi : s.handlers[i]? = some ⟨n, offset, none⟩)
    (hframe : frameStep readServer s.buffer n offset = .advance call offset') :
    Orderly
      { s with
        handlers := s.handlers.set i ⟨n, offset', some (call, s.world.calls.length)⟩
        world
        calls := s.calls ++ [call] } := by
  obtain ⟨hhandlers, rfl, hreads⟩ := h.alone hi
  obtain ⟨rest, htaken, hrests⟩ := h.parsed
  obtain ⟨hoffset, hn, hslice⟩ := hrests.handled (List.mem_of_getElem? hi)
  have hsize : bufferSize < 2 ^ 63 := by decide
  have hanswered := h.answered
  -- The frame at the front of the rest, and what is behind it.
  obtain ⟨size, hfront, rfl, hbehind⟩ : ∃ size, frameFront readServer rest = .frame call size ∧
      offset' = offset + size ∧ offset + size ≤ n := by
    have hbound := (frameStep_advance (by omega) hoffset hframe).2
    rw [frameStep_front s.buffer (by omega) hoffset, hslice] at hframe
    cases hfront : frameFront readServer rest with
    | more =>
      rw [hfront] at hframe
      cases hframe
    | bad e =>
      rw [hfront] at hframe
      cases hframe
    | frame call' size =>
      rw [hfront] at hframe
      cases hframe
      exact ⟨size, rfl, rfl, hbound⟩
  rw [hhandlers] at hanswered ⊢
  refine ⟨h.sends, by simp [hreads], ?_, rest.drop size, htaken.dispatch hfront, ?_, ?_⟩
  · have hcalls : s.replies.map GetCommandResponse.tag =
        (s.calls.flatMap ServerCall.gets).map GetCommand.tag := by simpa [Handler.gets] using hanswered
    simp [Handler.gets, hcalls]
  · intro hpos
    exact absurd hreads (Nat.ne_of_gt hpos)
  · intro handler hmem
    cases List.mem_singleton.1 hmem
    refine ⟨hbehind, hn, ?_⟩
    rw [← hslice, Buffer.slice_drop s.buffer (Nat.le_add_right offset size) hbehind, Nat.add_sub_cancel_left]

/-- The handler goes back to its loop. -/
theorem Orderly.back (h : s.Orderly) {i j n offset : Nat} {call : ServerCall}
    {replies : List GetCommandResponse} {conn : Connection}
    (hi : s.handlers[i]? = some ⟨n, offset, some (call, j)⟩)
    (hsends : conn.Sends (replies.map .getResponse)) (hreads : conn.reads = s.conn.reads)
    (hreplies : replies.map GetCommandResponse.tag =
      s.replies.map GetCommandResponse.tag ++ call.gets.map GetCommand.tag) :
    Orderly { s with conn, handlers := s.handlers.set i { n, offset }, replies } := by
  obtain ⟨hhandlers, rfl, hnone⟩ := h.alone hi
  obtain ⟨rest, htaken, hrests⟩ := h.parsed
  have hhandled := hrests.handled (List.mem_of_getElem? hi)
  have hanswered := h.answered
  rw [hhandlers] at hanswered ⊢
  refine ⟨hsends, by simp [hreads, hnone], ?_, rest, htaken, ?_, ?_⟩
  · rw [← hanswered, hreplies]
    simp [Handler.gets]
  · intro hpos
    exact absurd (hreads.trans hnone) (Nat.ne_of_gt hpos)
  · intro handler hmem
    cases List.mem_singleton.1 hmem
    exact hhandled

theorem Orderly.reply (h : s.Orderly) {i j n offset : Nat} {cmd : GetCommand} {response : GetCommandResponse}
    (hi : s.handlers[i]? = some ⟨n, offset, some (.get cmd, j)⟩) (htag : response.tag = cmd.tag) :
    Orderly ({ s with handlers := s.handlers.set i { n, offset } }.send response) := by
  refine h.back hi ?_ (Connection.reads_post (by simp)) ?_
  · rw [List.map_append]
    exact h.sends.post _
  · rw [List.map_append, List.map_singleton, htag]
    rfl

/-- No `close` is run, and the end of the stream is not seen. -/
def StaysOpen (s : Session) : Action → Prop
  | .strand event => s.conn.closes event = false ∧ event ≠ .readEnded
  | _ => True

instance (s : Session) (action : Action) : Decidable (s.StaysOpen action) := by
  unfold StaysOpen
  split <;> infer_instance

/-- A step that runs no `close`. -/
theorem Orderly.step {action : Action} (h : s.Orderly)
    (hopen : ∀ event, action = .strand event → s.conn.closes event = false)
    (hs : s.step action = some s') : s'.Orderly := by
  cases step_spec hs with
  | strand hout hconn => exact h.strand hout (hopen _ rfl) hconn
  | receive hroom hreading => exact h.receive hroom hreading
  | stop hi hstop => exact h.stop hi
  | fail hi => exact h.fail hi
  | dispatch hi hframe => exact h.dispatch hi hframe
  | reply hi htag => exact h.reply hi htag
  | setDone hi => exact h.back hi h.sends rfl (List.append_nil _).symm
  | store =>
    obtain ⟨rest, htaken, hrests⟩ := h.parsed
    exact ⟨h.sends, h.single, h.answered, rest, htaken, hrests.waiting, hrests.handled⟩

/-! ## Over any run -/

/-- The commands dispatched are the frames of the stream, in order; each GET
among them is answered once, in order, with its key and its id; and the frames
handed to `async_write` are those of the replies, in order. -/
structure InOrder (s : Session) : Prop where
  dispatched : s.calls <+: (reference readServer s.received).items
  answered : s.replies.map GetCommandResponse.tag <+:
    (s.calls.flatMap ServerCall.gets).map GetCommand.tag
  written : s.conn.written.map some <+: (s.replies.map Message.getResponse).map Message.frame?

/-- **A session that is not closed answers in order.** In every state of every
run, whatever the chunks the stream arrives in, and whatever tasks, completions
and steps of others come in between. -/
theorem run_inOrder {world : World} {actions : List Action} {s : Session}
    (halong : Along step StaysOpen (start world) actions) (hr : run step (start world) actions = some s) :
    s.InOrder := by
  have h : s.Orderly := by
    refine halong.invariant (fun s a s' h hopen hs => ?_) hr (orderly_start world)
    refine h.step (fun event haction => ?_) hs
    subst haction
    exact hopen.1
  obtain ⟨rest, htaken, -⟩ := h.parsed
  refine ⟨htaken.dispatched, ?_, h.sends.written⟩
  rw [← h.answered]
  exact List.prefix_append _ _

/-- Two GETs and the first part of a SET arrive in one chunk. The second GET is dispatched while the reply to the
first is being written. -/
def getsThenSet : List Action :=
  [.strand .run,
    .receive [12, 0, 0, 0, 0, 1, 0, 0, 0, 97, 7, 0, 12, 0, 0, 0, 0, 1, 0, 0, 0, 98, 9, 0, 15, 0, 0, 0, 1],
    .iterate 0, .store (.step 0), .store (.step 0), .respond 0, .strand .run,
    .iterate 0, .store (.step 1), .store (.step 1), .respond 0, .strand (.writeDone 0), .strand .run, .iterate 0,
    .receive [1, 0, 0, 0, 97, 1, 0, 0, 0, 1], .iterate 0, .strand .run, .strand (.writeDone 0)]

theorem run_inOrder_getsThenSet :
    ∃ s, run step (start { store := {} }) getsThenSet = some s ∧ s.calls.length = 3 ∧
      s.replies.map GetCommandResponse.requestId = [7, 9] ∧ s.conn.written.length = 2 ∧ s.InOrder := by
  have hfields : (run step (start { store := {} }) getsThenSet).map (fun s =>
      (s.calls.length, s.replies.map GetCommandResponse.requestId, s.conn.written.length)) =
      some (3, [7, 9], 2) := by decide
  obtain ⟨s, hr, heq⟩ := Option.map_eq_some_iff.1 hfields
  obtain ⟨hcalls, heq⟩ := Prod.mk.inj heq
  obtain ⟨hids, hwritten⟩ := Prod.mk.inj heq
  exact ⟨s, hr, hcalls, hids, hwritten, run_inOrder (by decide) hr⟩

end Session

end ConfigServer
