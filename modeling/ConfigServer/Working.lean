/-
What is still to be done on a connection that is open, will be done. The head of
its queue is being written, or its `send_next` is posted; the next bytes will be
read, or are being handled; or else a `close` has been posted. Only an aborted
write and the end of the stream would leave a connection open with nobody to go
on, and these come when one of the two sockets has been closed.
-/
import ConfigServer.System

namespace ConfigServer

open Framing Receiver Runs

/-! ## A connection -/

namespace Connection

variable {c c' : Connection} {messages : List Message} {event : Event} {handlers : Nat}

/-- A `close` has been posted. -/
def Closing (c : Connection) : Prop := ∃ cause, .close cause ∈ c.strand

/-- Whoever has to go on, does: the head of the queue will be popped, and there is a read to
come, or one of these handlers is at work. Or the connection is about to be closed. -/
def Working (c : Connection) (handlers : Nat) : Prop :=
  c.Closing ∨ c.HeadPending ∧ 0 < c.reads + handlers

/-- The completion has no successor: a write that was aborted, or the end of the stream. -/
def Event.cut : Event → Bool
  | .writeAborted _ => true
  | .readEnded => true
  | _ => false

theorem Closing.mono (h : c.Closing) (hstrand : ∀ task ∈ c.strand, task ∈ c'.strand) : c'.Closing :=
  h.imp fun _ hmem => hstrand _ hmem

theorem closing_post (c : Connection) (cause : CloseCause) : (c.post (.close cause)).Closing :=
  ⟨cause, List.mem_append_right _ (List.mem_singleton_self _)⟩

/-- A closed socket is not opened again. -/
theorem open_of_step (hs : c.step event = some c') (hopen : c'.isOpen = true) : c.isOpen = true := by
  cases (step_spec hs).2 with
  | run hstrand htask => exact (runTask_frame htask).2.2.2.1 hopen
  | readDone hreading =>
    unfold Connection.doRead at hopen
    split at hopen <;> exact hopen
  | _ => exact hopen

/-- A step that leaves the socket open runs no `close`. -/
theorem closes_of_open (hs : c.step event = some c') (hopen : c'.isOpen = true) : c.closes event = false := by
  cases hclose : c.closes event with
  | false => rfl
  | true =>
    have hbefore := open_of_step hs hopen
    unfold closes at hclose
    split at hclose
    · split at hclose
      · next cause tasks hstrand =>
        simp only [Connection.step, (step_spec hs).1, hstrand, Option.isSome_none, Bool.false_eq_true,
          if_false, runTask, close, hbefore, Bool.not_true, Option.some.injEq] at hs
        subst hs
        cases hopen
      · cases hclose
    · cases hclose

/-- An event from outside that cuts nothing off. -/
theorem Working.step (h : c.Working handlers) (hemits : c.Emits messages) (hout : event.outside = true)
    (hcut : event.cut = false) (hs : c.step event = some c')
    (hopen : c'.isOpen = true) : c'.Working handlers := by
  have hbefore := open_of_step hs hopen
  have hclose := closes_of_open hs hopen
  obtain ⟨_, sent, hordered, -⟩ := (hemits.sends hbefore).split
  rcases h with hclosing | ⟨hhead, hreads⟩
  · -- The `close` is still there.
    refine .inl ?_
    cases (step_spec hs).2 with
    | @run task tasks _ hstrand htask =>
      obtain ⟨cause, hmem⟩ := hclosing
      rw [hstrand] at hmem
      rcases List.mem_cons.1 hmem with rfl | hmem
      · simp [closes, hstrand] at hclose
      · exact ⟨cause, (runTask_frame htask).1 ▸ hmem⟩
    | readCall => cases hout
    | sendCall => cases hout
    | readDone hreading => cases hout
    | writeDone hi => exact hclosing.mono fun task hmem => List.mem_append_left _ hmem
    | writeFailed hi => exact hclosing.mono fun task hmem => List.mem_append_left _ hmem
    | writeAborted hi => exact hclosing
    | readFailed hreading => exact hclosing.mono fun task hmem => List.mem_append_left _ hmem
    | readEnded hreading => exact hclosing
    | timerExpired harmed => exact hclosing
    | timerHandler hqueued => exact hclosing.mono fun task hmem => List.mem_append_left _ hmem
  · cases (step_spec hs).2 with
    | run hstrand htask =>
      refine .inr ⟨hhead.step hordered ⟨hclose, rfl⟩ hs, ?_⟩
      rw [(runTask_reads hstrand htask).2 hbefore]
      exact hreads
    | readCall => cases hout
    | sendCall => cases hout
    | readDone hreading => cases hout
    | writeDone hi =>
      refine .inr ⟨hhead.step hordered ⟨hclose, rfl⟩ hs, ?_⟩
      rw [reads_post (by simp)]
      exact hreads
    | writeFailed hi => exact .inl (closing_post { c with inFlight := _ } .write)
    | writeAborted hi => cases hcut
    | readFailed hreading => exact .inl (closing_post { c with reading := _ } .read)
    | readEnded hreading => cases hcut
    | timerExpired harmed => exact .inr ⟨hhead.of_eq rfl rfl, hreads⟩
    | timerHandler hqueued => exact .inl (closing_post { c with timer := _ } _)

/-- A read completes, and its handler starts. -/
theorem Working.handle (h : c.Working handlers) :
    ({ c with reading := c.reading - 1 } : Connection).Working (handlers + 1) := by
  refine h.imp id fun ⟨hhead, hreads⟩ => ⟨hhead.of_eq rfl rfl, ?_⟩
  simp only [reads] at hreads ⊢
  omega

/-- A handler reads on, while the socket is open. -/
theorem Working.doRead (h : c.Working (handlers + 1)) (hopen : c.isOpen = true) : c.doRead.Working handlers := by
  obtain ⟨hstrand, hreads⟩ := doRead_frame (c := c)
  rw [if_pos hopen] at hreads
  refine h.imp (fun hclosing => hclosing.mono fun task hmem => hstrand.symm ▸ hmem) fun ⟨hhead, hpos⟩ => ?_
  exact ⟨hhead.doRead, by omega⟩

/-- A reply is posted. -/
theorem Working.post (h : c.Working handlers) (cmd : Message) : (c.post (.send cmd)).Working handlers := by
  refine h.imp (fun hclosing => hclosing.mono fun task hmem => List.mem_append_left _ hmem)
    fun ⟨hhead, hreads⟩ => ?_
  exact ⟨hhead.of_eq rfl (pending_post (by simp)), by rwa [reads_post (by simp)]⟩

/-- The strand has no task, and no write is in flight. -/
def Idle (c : Connection) : Prop := c.strand = [] ∧ c.inFlight = []

instance (c : Connection) : Decidable c.Idle := inferInstanceAs (Decidable (_ ∧ _))

/-- A strand with a task to run is not stuck, unless a message cannot be serialized. -/
theorem run_enabled (hsends : c.Sends messages)
    (hserialize : ∀ cmd ∈ messages, ∃ writer, cmd.serialize = .ok writer)
    (hstrand : c.strand ≠ []) : (c.step .run).isSome = true := by
  obtain ⟨done, sent, hordered, hmessages, -⟩ := hsends.split
  obtain ⟨task, tasks, htasks⟩ := List.exists_cons_of_ne_nil hstrand
  simp only [step, hordered.inv.noFault, htasks, Option.isSome_none, Bool.false_eq_true, if_false]
  cases task with
  | send cmd =>
    have hcmd : cmd ∈ messages := by
      rw [hmessages, htasks]
      exact List.mem_append_right _ List.mem_cons_self
    obtain ⟨writer, hok⟩ := hserialize cmd hcmd
    simp only [runTask, runSend, hok]
    split <;> rfl
  | _ => rfl

/-- On an idle connection that works, all that has been posted has been written. -/
theorem Working.written (h : c.Working handlers) (hsends : c.Sends messages) (hidle : c.Idle) :
    c.written.map some = messages.map Message.frame? ∧ 0 < c.reading + handlers := by
  obtain ⟨hstrand, hflight⟩ := hidle
  obtain ⟨hhead, hreads⟩ := h.resolve_left fun ⟨cause, hmem⟩ => absurd (hstrand ▸ hmem) List.not_mem_nil
  have hqueue : c.sendQueue = [] := hhead (by simp [pending, hstrand, hflight])
  obtain ⟨done, sent, hordered, hmessages, hdone⟩ := hsends.split
  refine ⟨?_, by simpa [reads, hstrand] using hreads⟩
  have hsent : sent = c.written := by rw [hordered.sent_eq, hqueue, List.tail_nil, List.append_nil]
  rw [hmessages, hstrand, List.filterMap_nil, List.append_nil, hdone, hsent]

end Connection

/-! ## A session -/

namespace Session

variable {s s' : Session} {action : Action}

/-- The connection, with the handlers at work, goes on. -/
def Working (s : Session) : Prop := s.conn.Working s.handlers.length

theorem working_start (world : World) : (start world).Working :=
  .inr ⟨fun _ => rfl, Nat.one_pos⟩

theorem Working.held (h : s.Working) : s.held = true := by
  unfold Session.held
  rcases h with ⟨cause, hmem⟩ | ⟨-, hreads⟩
  · have hholds : s.conn.strand.any Task.holds = true := List.any_eq_true.2 ⟨_, hmem, rfl⟩
    simp [hholds]
  · by_cases hread : .read ∈ s.conn.strand
    · have hholds : s.conn.strand.any Task.holds = true := List.any_eq_true.2 ⟨_, hread, rfl⟩
      simp [hholds]
    · rw [Connection.reads, List.count_eq_zero.2 hread, Nat.add_zero] at hreads
      cases hhandlers : s.handlers with
      | nil =>
        have hreading : 0 < s.conn.reading := by simpa [hhandlers] using hreads
        simp [hreading]
      | cons handler handlers => simp

/-- The step cuts off a write or a read. -/
def Action.cut : Action → Bool
  | .strand event => event.cut
  | _ => false

theorem open_of_step (hs : s.step action = some s') (hopen : s'.conn.isOpen = true) : s.conn.isOpen = true := by
  cases step_spec hs with
  | strand hout hconn => exact Connection.open_of_step hconn hopen
  | stop hi hstop =>
    dsimp only [Connection.doRead] at hopen
    split at hopen <;> exact hopen
  | _ => exact hopen

theorem Working.step (h : s.Working) (hregular : s.Regular) (hcut : action.cut = false)
    (hs : s.step action = some s') (hopen : s'.conn.isOpen = true) : s'.Working := by
  have hbefore := open_of_step hs hopen
  cases step_spec hs with
  | strand hout hconn => exact Connection.Working.step h hregular.emits hout hcut hconn hopen
  | receive hroom hreading =>
    unfold Working
    rw [List.length_append]
    exact Connection.Working.handle h
  | @stop i n offset hi hstop =>
    have hlt := (List.getElem?_eq_some_iff.1 hi).1
    have hlength : s.handlers.length = (s.handlers.eraseIdx i).length + 1 := by
      rw [List.length_eraseIdx_of_lt hlt]
      omega
    unfold Working at h
    rw [hlength] at h
    exact h.doRead hbefore
  | fail hi => exact .inl (Connection.closing_post _ _)
  | dispatch hi hframe =>
    unfold Working
    rw [List.length_set]
    exact h
  | reply hi htag =>
    unfold Working
    dsimp only [send]
    rw [List.length_set]
    exact Connection.Working.post h _
  | setDone hi =>
    unfold Working
    rw [List.length_set]
    exact h
  | store => exact h

/-- What waits for the next read is not a frame. -/
def Parsed (s : Session) : Prop :=
  0 < s.conn.reads → frameFront readServer (s.buffer.slice 0 s.unparsedBytes) = .more

theorem parsed_start (world : World) : (start world).Parsed := fun _ => rfl

/-- While a handler is at work, there is no read to come. -/
theorem Regular.alone (h : s.Regular) {i : Nat} {handler : Handler} (hi : s.handlers[i]? = some handler) :
    s.handlers = [handler] ∧ i = 0 ∧ s.conn.reads = 0 := by
  obtain ⟨hhandlers, hzero, hreads⟩ := h.orderly.alone hi
  exact ⟨hhandlers, hzero, (unsent_reads _ _).symm.trans hreads⟩

theorem Parsed.step (h : s.Parsed) (hregular : s.Regular) (hs : s.step action = some s') : s'.Parsed := by
  intro hreads
  cases step_spec hs with
  | strand hout hconn => exact h (Nat.lt_of_lt_of_le hreads (Connection.step_reads hout hconn))
  | receive hroom hreading =>
    -- The read that completes was the only one.
    have hsingle := hregular.orderly.single
    rw [unsent_reads] at hsingle
    simp only [Connection.reads] at hreads hsingle
    omega
  | @stop i n offset hi hstop =>
    obtain ⟨rest, -, hrests⟩ := hregular.orderly.parsed
    obtain ⟨hoffset, hn, hslice⟩ := hrests.handled (List.mem_of_getElem? hi)
    obtain ⟨buffer, unparsedBytes, hcarry, -, hwaiting⟩ := carryOver_spec (s := s) hoffset hn
    have hsize : bufferSize < 2 ^ 63 := by decide
    rw [frameStep_front s.buffer (by omega) hoffset] at hstop
    rw [hcarry]
    dsimp only
    rw [hwaiting]
    cases hfront : frameFront readServer (s.buffer.slice offset n) with
    | more => rfl
    | bad e =>
      rw [hfront] at hstop
      cases hstop
    | frame call size =>
      rw [hfront] at hstop
      cases hstop
  | fail hi =>
    rw [Connection.reads_post (by simp), (hregular.alone hi).2.2] at hreads
    cases hreads
  | dispatch hi hframe => exact h hreads
  | reply hi htag =>
    dsimp only [send] at hreads ⊢
    rw [Connection.reads_post (by simp)] at hreads
    exact h hreads
  | setDone hi => exact h hreads
  | store => exact h hreads

end Session

/-! ## A client -/

namespace Client

variable {c c' : Client} {action : Action}

def Working (c : Client) : Prop := c.conn.Working 0

/-- The step cuts off a write or a read. -/
def Action.cut : Action → Bool
  | .strand event => event.cut
  | .receive _ => false

theorem posts_queue (conn : Connection) (commands : List ServerCall) :
    (commands.foldl (fun conn command => conn.post (.send command.message)) conn).sendQueue =
      conn.sendQueue := by
  induction commands generalizing conn with
  | nil => rfl
  | cons command commands ih => exact ih _

theorem working_start (commands : List ServerCall) : (start commands).Working := by
  refine .inr ⟨fun _ => posts_queue _ commands, ?_⟩
  rw [start, posts_reads]
  exact Nat.one_pos

/-- What a step does to the connection. -/
theorem step_conn (hs : c.step action = some c') :
    (∃ event, action = .strand event ∧ event.outside = true ∧ c.conn.step event = some c'.conn) ∨
      (∃ chunk, action = .receive chunk) ∧
        (c'.conn = ({ c.conn with reading := c.conn.reading - 1 } : Connection).doRead ∨
          c'.conn = ({ c.conn with reading := c.conn.reading - 1 } : Connection).post (.close .read)) := by
  unfold step at hs
  split at hs
  · cases hs
  · cases action with
    | strand event =>
      dsimp only at hs
      split at hs
      · next hout =>
        obtain ⟨conn, hconn, rfl⟩ := Option.map_eq_some_iff.1 hs
        exact .inl ⟨event, rfl, hout, hconn⟩
      · cases hs
    | receive chunk =>
      obtain ⟨-, -, ⟨-, rfl⟩ | rfl⟩ := receive_cases hs
      · exact .inr ⟨⟨chunk, rfl⟩, .inl rfl⟩
      · exact .inr ⟨⟨chunk, rfl⟩, .inr rfl⟩

theorem open_of_step (hs : c.step action = some c') (hopen : c'.conn.isOpen = true) : c.conn.isOpen = true := by
  obtain ⟨event, rfl, -, hconn⟩ | ⟨-, hread | hclose⟩ := step_conn hs
  · exact Connection.open_of_step hconn hopen
  · rw [hread, Connection.doRead] at hopen
    split at hopen <;> exact hopen
  · rwa [hclose] at hopen

theorem Working.step (h : c.Working) (hregular : c.Regular) (hcut : action.cut = false)
    (hs : c.step action = some c') (hopen : c'.conn.isOpen = true) : c'.Working := by
  have hbefore := open_of_step hs hopen
  obtain ⟨event, rfl, hout, hconn⟩ | ⟨-, hread | hclose⟩ := step_conn hs
  · exact Connection.Working.step h hregular.emits hout hcut hconn hopen
  · unfold Working
    rw [hread]
    exact Connection.Working.doRead h.handle hbefore
  · exact .inl (hclose ▸ Connection.closing_post _ _)

end Client

end ConfigServer
