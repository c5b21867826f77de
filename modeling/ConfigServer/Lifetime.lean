/-
Who keeps a session and its connection alive. The `read` task, an outstanding
read and the handler of a read hold the session, which holds the connection;
`send_next` and `close` tasks hold the connection. `send` tasks, writes in
flight and the timer hold weak references: what they were still to do is
dropped when the connection is destroyed.

After the end of the stream only a posted `send_next` keeps the connection, and
the last thing it does is to start the next write. So nothing is dropped
exactly when, at the end of the stream, all replies have been written
(`run_nothingPending_iff`).
-/
import ConfigServer.ReplyOrder

namespace ConfigServer

open Framing Runs Receiver

/-! ## Ownership -/

/-- The task holds the connection, or the session that holds it. -/
def Task.holds : Task → Bool
  | .read => true
  | .send _ => false
  | .sendNext => true
  | .close _ => true

/-- Something holds the connection: a read, its handler or a task. -/
def Session.held (s : Session) : Bool :=
  0 < s.conn.reading || !s.handlers.isEmpty || s.conn.strand.any Task.holds

/-- A session, and whether it has been destroyed with its connection; it is left as it was then. -/
structure Owned where
  session : Session
  destroyed : Bool := false

namespace Owned

def start (world : World) : Owned := { session := .start world }

def step (s : Owned) (action : Session.Action) : Option Owned :=
  if s.destroyed then none
  else (s.session.step action).map fun session => { session, destroyed := !session.held }

end Owned

namespace Connection

variable {c c' : Connection}

/-- The messages whose `send` task has not been run. -/
def posted (c : Connection) : List Message := c.strand.filterMap Task.message?

/-- No message is in a posted `send` task, in the queue or in an unfinished write. -/
def NothingPending (c : Connection) : Prop := c.posted = [] ∧ c.sendQueue = [] ∧ c.inFlight = []

/-- All messages have been written: what the queue may still have is the buffer whose write has
completed, which the `send_next` posted then will pop. -/
def Delivered (c : Connection) : Prop := c.posted = [] ∧ c.sendQueue.length ≤ 1 ∧ c.inFlight = []

instance (c : Connection) : Decidable c.NothingPending := inferInstanceAs (Decidable (_ ∧ _))

instance (c : Connection) : Decidable c.Delivered := inferInstanceAs (Decidable (_ ∧ _))

/-- With no `send_next` to come these are the same. -/
theorem HeadPending.nothingPending_iff (h : HeadPending c) (hnext : .sendNext ∉ c.strand) :
    c.NothingPending ↔ c.Delivered := by
  constructor
  · rintro ⟨hposted, hqueue, hflight⟩
    exact ⟨hposted, by simp [hqueue], hflight⟩
  · rintro ⟨hposted, -, hflight⟩
    have hpending : c.pending = 0 := by
      simp [pending, hflight, List.count_eq_zero.2 hnext]
    exact ⟨hposted, h hpending, hflight⟩

/-! ## The steps of a connection -/

/-- The strand runs a task, a write succeeds, or the end of the stream is met:
there is no I/O error and no timeout. -/
def Event.expected : Event → Bool
  | .run => true
  | .writeDone _ => true
  | .readEnded => true
  | _ => false

/-- While a `send_next` is posted nothing is in flight, and the queue has a head. -/
theorem Ordered.next_posted {sent : List Bytes} (h : Ordered c sent) (hnext : .sendNext ∈ c.strand) :
    c.strand.count .sendNext = 1 ∧ c.inFlight = [] ∧ c.sendQueue ≠ [] := by
  have hle := h.inv.pending_le h.isOpen
  have hpos := List.count_pos_iff.2 hnext
  have hhead := h.inv.head h.isOpen
  simp only [pending] at hle hhead
  exact ⟨by omega, List.eq_nil_of_length_eq_zero (by omega), hhead (by omega)⟩

theorem Ordered.sendNext_delivered {sent : List Bytes} {tasks : List Task} (h : Ordered c sent)
    (hstrand : c.strand = .sendNext :: tasks) :
    ({ c with strand := tasks } : Connection).sendNext.Delivered ↔ c.Delivered := by
  obtain ⟨-, hflight, hne⟩ := h.next_posted (by simp [hstrand])
  obtain ⟨data, rest, hqueue⟩ := List.exists_cons_of_ne_nil hne
  obtain ⟨-, hstrand', hqueue', -, hflight'⟩ := sendNext_fields (c := { c with strand := tasks }) hqueue
  unfold Delivered posted
  rw [hstrand', hqueue', hflight', hstrand, hqueue, hflight]
  cases rest with
  | nil => simp [Task.message?]
  | cons next rest => simp

/-- A `send` task that is run before a posted `send_next` leaves its buffer behind the head. -/
theorem Ordered.send_delivered {sent : List Bytes} {cmd : Message} {tasks : List Task} (h : Ordered c sent)
    (hstrand : c.strand = .send cmd :: tasks) (hnext : .sendNext ∈ c.strand)
    (htask : ({ c with strand := tasks } : Connection).runSend cmd = some c') :
    c'.Delivered ↔ c.Delivered := by
  obtain ⟨-, -, hne⟩ := h.next_posted hnext
  obtain ⟨writer, -, -, -, hqueue, -⟩ := runSend_fields (c := { c with strand := tasks }) h.isOpen htask
  have hbefore : ¬ c.Delivered := by
    rintro ⟨hposted, -⟩
    simp [posted, hstrand, Task.message?] at hposted
  have hafter : ¬ c'.Delivered := by
    rintro ⟨-, hlength, -⟩
    have hpos := List.length_pos_iff.2 hne
    simp only [hqueue, List.length_append, List.length_singleton] at hlength
    omega
  exact iff_of_false hafter hbefore

/-- After the end of the stream, while a `send_next` is posted, a step neither
delivers what was not delivered nor loses what was. -/
theorem Ordered.delivered_step {sent : List Bytes} {event : Event} (h : Ordered c sent)
    (hreads : c.reads = 0) (hnext : .sendNext ∈ c.strand) (hclose : c.closes event = false)
    (hexpected : event.expected = true) (hs : c.step event = some c') : c'.Delivered ↔ c.Delivered := by
  cases (step_spec hs).2 with
  | @run task tasks _ hstrand htask =>
    cases task with
    | read => simp [reads, hstrand] at hreads
    | send cmd => exact h.send_delivered hstrand hnext htask
    | sendNext =>
      cases htask
      exact h.sendNext_delivered hstrand
    | close cause => simp [closes, hstrand] at hclose
  | writeDone hi => simp [(h.next_posted hnext).2.1] at hi
  | readEnded hreading =>
    simp only [reads] at hreads
    omega
  | _ => cases hexpected

/-- In a run without I/O error and timeout nothing posts a `close`. -/
theorem step_noClose {event : Event} (h : ∀ cause, .close cause ∉ c.strand)
    (hexpected : event.expected = true) (hs : c.step event = some c') :
    ∀ cause, .close cause ∉ c'.strand := by
  intro cause
  cases (step_spec hs).2 with
  | @run task tasks _ hstrand htask =>
    rw [(runTask_frame htask).1]
    intro hmem
    exact h cause (hstrand ▸ List.mem_cons_of_mem task hmem)
  | writeDone hi => simpa [Connection.post] using h cause
  | readEnded hreading => exact h cause
  | _ => cases hexpected

theorem closes_eq_false (h : ∀ cause, .close cause ∉ c.strand) (event : Event) : c.closes event = false := by
  unfold closes
  split
  · split
    · next cause tasks hstrand =>
      exact absurd (List.mem_cons_self (l := tasks)) (hstrand ▸ h cause)
    · rfl
  · rfl

/-- A step keeps the reads to come, or it is the end of the stream and takes the read that met it. -/
theorem step_reads_eq {event : Event} (hopen : c.isOpen = true) (hexpected : event.expected = true)
    (hs : c.step event = some c') :
    event ≠ .readEnded ∧ c'.reads = c.reads ∨ event = .readEnded ∧ c'.reads + 1 = c.reads := by
  cases (step_spec hs).2 with
  | run hstrand htask => exact .inl ⟨by simp, (runTask_reads hstrand htask).2 hopen⟩
  | writeDone hi => exact .inl ⟨by simp, reads_post (c := { c with inFlight := _ }) (by simp)⟩
  | readEnded hreading =>
    refine .inr ⟨rfl, ?_⟩
    simp only [reads]
    omega
  | _ => cases hexpected

end Connection

namespace Session

variable {s s' : Session} {action : Action}

/-! ## The steps of a session -/

/-- There is no I/O error and no timeout in the step. -/
def Action.expected : Action → Bool
  | .strand event => event.expected
  | _ => true

/-- The bytes are good frames as far as they go. -/
def Valid (received : Bytes) : Prop := ∃ rest, (reference readServer received).status = .reading rest

theorem Valid.of_append {received chunk : Bytes} (h : Valid (received ++ chunk)) : Valid received := by
  obtain ⟨rest, hstatus⟩ := h
  have hfeed : reference readServer (received ++ chunk) =
      (frames readServer).feed (reference readServer received) chunk := Cutter.parse_append received chunk
  cases hreceived : (reference readServer received).status with
  | reading rest' => exact ⟨rest', hreceived⟩
  | closed e =>
    rw [hfeed, Cutter.feed, hreceived] at hstatus
    exact absurd (hreceived.symm.trans hstatus) (by simp)

theorem carryOver_received (n offset : Nat) : (s.carryOver n offset).received = s.received := by
  unfold carryOver
  split <;> rfl

theorem Valid.of_step (hs : s.step action = some s') (h : Valid s'.received) : Valid s.received := by
  cases step_spec hs with
  | receive hroom hreading => exact h.of_append
  | stop hi hstop => rwa [carryOver_received] at h
  | _ => exact h

/-- A handler does not meet a bad frame. -/
theorem Orderly.not_failed (h : s.Orderly) (hvalid : Valid s.received) {i n offset : Nat} {e : FrameError}
    (hi : s.handlers[i]? = some ⟨n, offset, none⟩) : frameStep readServer s.buffer n offset ≠ .failed e := by
  obtain ⟨rest, ⟨used, hreference⟩, hrests⟩ := h.parsed
  obtain ⟨hoffset, hn, hslice⟩ := hrests.handled (List.mem_of_getElem? hi)
  have hsize : bufferSize < 2 ^ 63 := by decide
  obtain ⟨pending, hstatus⟩ := hvalid
  rw [frameStep_front s.buffer (by omega) hoffset, hslice]
  cases hfront : frameFront readServer rest with
  | bad e' =>
    rw [hreference, Cutter.parse_bad (c := frames readServer) hfront] at hstatus
    cases hstatus
  | _ => simp

/-- So it goes back to reading, or on to the next frame. -/
theorem Orderly.iterate_valid (h : s.Orderly) (hvalid : Valid s.received) {i : Nat}
    (hs : s.iterate i = some s') :
    ∃ n offset, s.handlers[i]? = some ⟨n, offset, none⟩ ∧
      (s'.conn = s.conn.doRead ∧ s'.handlers = s.handlers.eraseIdx i ∨
        s'.conn = s.conn ∧ s'.handlers.length = s.handlers.length) := by
  unfold iterate at hs
  split at hs
  · next n offset hi =>
    refine ⟨n, offset, hi, ?_⟩
    split at hs
    · cases hs
      exact .inl ⟨rfl, rfl⟩
    · next hfailed => exact absurd hfailed (h.not_failed hvalid hi)
    · obtain ⟨world, -, rfl⟩ := Option.map_eq_some_iff.1 hs
      exact .inr ⟨rfl, List.length_set⟩
  · cases hs

/-- What holds of a session before and after each step, with no I/O error, no timeout and valid frames. -/
structure Peaceful (s : Session) : Prop where
  orderly : s.Orderly
  headPending : s.conn.HeadPending
  noClose : ∀ cause, .close cause ∉ s.conn.strand

/-- The reads to come and the handlers of those that have completed. -/
def readers (s : Session) : Nat := s.conn.reads + s.handlers.length

theorem peaceful_start (world : World) : (start world).Peaceful where
  orderly := orderly_start world
  headPending _ := rfl
  noClose := by simp [start, Connection.post]

theorem Peaceful.held_iff (h : s.Peaceful) : s.held = true ↔ 0 < s.readers ∨ .sendNext ∈ s.conn.strand := by
  have hholds : s.conn.strand.any Task.holds = true ↔
      .read ∈ s.conn.strand ∨ .sendNext ∈ s.conn.strand := by
    rw [List.any_eq_true]
    constructor
    · rintro ⟨task, hmem, hholds⟩
      cases task with
      | read => exact .inl hmem
      | send cmd => cases hholds
      | sendNext => exact .inr hmem
      | close cause => exact absurd hmem (h.noClose cause)
    · rintro (hmem | hmem)
      · exact ⟨_, hmem, rfl⟩
      · exact ⟨_, hmem, rfl⟩
  have hreaders : 0 < s.readers ↔ 0 < s.conn.reading ∨ .read ∈ s.conn.strand ∨ s.handlers ≠ [] := by
    rw [← List.count_pos_iff, Ne, ← List.length_eq_zero_iff]
    simp only [readers, Connection.reads]
    omega
  simp only [held, hreaders, Bool.or_eq_true, hholds, decide_eq_true_eq, Bool.not_eq_true',
    List.isEmpty_eq_false_iff]
  grind

/-- The connection is open, with its writes in order. -/
theorem Peaceful.ordered (h : s.Peaceful) : ∃ sent, s.conn.Ordered sent := by
  obtain ⟨_, sent, hordered, -⟩ := h.orderly.sends.split
  exact ⟨sent, hordered⟩

theorem Peaceful.strand (h : s.Peaceful) {event : Connection.Event} {conn : Connection}
    (hexpected : event.expected = true) (hconn : s.conn.step event = some conn) :
    conn.HeadPending ∧ (∀ cause, .close cause ∉ conn.strand) ∧
      (event ≠ .readEnded ∧ conn.reads = s.conn.reads ∨
        event = .readEnded ∧ conn.reads + 1 = s.conn.reads) := by
  obtain ⟨sent, hordered⟩ := h.ordered
  have hsucceeds : event.succeeds = true := by cases event <;> trivial
  refine ⟨?_, Connection.step_noClose h.noClose hexpected hconn, ?_⟩
  · exact h.headPending.step hordered ⟨Connection.closes_eq_false h.noClose event, hsucceeds⟩ hconn
  · exact Connection.step_reads_eq hordered.isOpen hexpected hconn

/-- What a step of another kind does to the connection: it posts a reply, reads on, or completes a read. -/
theorem Peaceful.other (h : s.Peaceful) (hvalid : Valid s.received) (hs : s.step action = some s')
    (hother : ∀ event, action ≠ .strand event) :
    s'.conn.HeadPending ∧ (∀ cause, .close cause ∉ s'.conn.strand) ∧ s'.readers = s.readers := by
  obtain ⟨sent, hordered⟩ := h.ordered
  cases action with
  | iterate i =>
    have hiterate : s.iterate i = some s' := by
      unfold step at hs
      split at hs
      · cases hs
      · exact hs
    obtain ⟨n, offset, hi, ⟨hconn, hhandlers⟩ | ⟨hconn, hlength⟩⟩ := h.orderly.iterate_valid hvalid hiterate
    · have hlt := (List.getElem?_eq_some_iff.1 hi).1
      obtain ⟨hstrand, hreads⟩ := Connection.doRead_frame (c := s.conn)
      rw [if_pos hordered.isOpen] at hreads
      rw [hconn, hstrand]
      refine ⟨h.headPending.doRead, h.noClose, ?_⟩
      simp only [readers, hconn, hhandlers, hreads, List.length_eraseIdx_of_lt hlt]
      omega
    · rw [hconn]
      refine ⟨h.headPending, h.noClose, ?_⟩
      simp only [readers, hconn, hlength]
  | strand event => exact absurd rfl (hother event)
  | receive chunk =>
    cases step_spec hs with
    | receive hroom hreading =>
      refine ⟨h.headPending.of_eq rfl rfl, h.noClose, ?_⟩
      simp only [readers, Connection.reads, List.length_append, List.length_singleton]
      omega
  | respond i =>
    cases step_spec hs with
    | reply hi htag =>
      refine ⟨h.headPending.of_eq rfl (Connection.pending_post (by simp)), ?_, ?_⟩
      · simpa [Session.send, Connection.post] using h.noClose
      · simp [readers, Session.send, Connection.reads_post]
    | setDone hi =>
      refine ⟨h.headPending, h.noClose, ?_⟩
      simp [readers]
  | store action =>
    cases step_spec hs with
    | store => exact ⟨h.headPending, h.noClose, rfl⟩

theorem Peaceful.step (h : s.Peaceful) (hexpected : action.expected = true) (hvalid : Valid s.received)
    (hs : s.step action = some s') : s'.Peaceful := by
  have horderly := h.orderly.step (fun event _ => Connection.closes_eq_false h.noClose event) hs
  by_cases hstrand : ∃ event, action = .strand event
  · obtain ⟨event, rfl⟩ := hstrand
    cases step_spec hs with
    | strand hout hconn =>
      obtain ⟨hhead, hclose, -⟩ := h.strand hexpected hconn
      exact ⟨horderly, hhead, hclose⟩
  · obtain ⟨hhead, hclose, -⟩ := h.other hvalid hs fun event heq => hstrand ⟨event, heq⟩
    exact ⟨horderly, hhead, hclose⟩

/-- Only the end of the stream takes a reader. -/
theorem Peaceful.step_readers (h : s.Peaceful) (hexpected : action.expected = true)
    (hvalid : Valid s.received) (hs : s.step action = some s') :
    action ≠ .strand .readEnded ∧ s'.readers = s.readers ∨
      action = .strand .readEnded ∧ s'.readers + 1 = s.readers := by
  by_cases hstrand : ∃ event, action = .strand event
  · obtain ⟨event, rfl⟩ := hstrand
    cases step_spec hs with
    | strand hout hconn =>
      obtain ⟨-, -, hreads⟩ := h.strand hexpected hconn
      simp only [readers]
      rcases hreads with ⟨hne, hreads⟩ | ⟨rfl, hreads⟩
      · exact .inl ⟨by simpa using hne, by omega⟩
      · exact .inr ⟨rfl, by omega⟩
  · obtain ⟨-, -, hreaders⟩ := h.other hvalid hs fun event heq => hstrand ⟨event, heq⟩
    exact .inl ⟨fun heq => hstrand ⟨_, heq⟩, hreaders⟩

/-- With no reader left only the strand, or the store, takes a step. -/
theorem Peaceful.ended_step (h : s.Peaceful) (hended : s.readers = 0) (hnext : .sendNext ∈ s.conn.strand)
    (hexpected : action.expected = true) (hs : s.step action = some s') :
    s'.conn.Delivered ↔ s.conn.Delivered := by
  obtain ⟨sent, hordered⟩ := h.ordered
  have hreads : s.conn.reads = 0 := by
    simp only [readers] at hended
    omega
  have hhandlers : s.handlers = [] := by
    simp only [readers] at hended
    exact List.eq_nil_of_length_eq_zero (by omega)
  cases step_spec hs with
  | @strand event conn hout hconn =>
    exact hordered.delivered_step hreads hnext (Connection.closes_eq_false h.noClose event) hexpected hconn
  | receive hroom hreading =>
    simp only [Connection.reads] at hreads
    omega
  | store => rfl
  | stop hi => simp [hhandlers] at hi
  | fail hi => simp [hhandlers] at hi
  | dispatch hi => simp [hhandlers] at hi
  | reply hi => simp [hhandlers] at hi
  | setDone hi => simp [hhandlers] at hi

theorem step_readEnded (hs : s.step (.strand .readEnded) = some s') :
    s'.conn.Delivered ↔ s.conn.Delivered := by
  cases step_spec hs with
  | strand hout hconn =>
    cases (Connection.step_spec hconn).2 with
    | readEnded hreading => rfl

end Session

namespace Owned

variable {s s' : Owned} {action : Session.Action}

/-! ## Over any run -/

/-- If the step is the end of the stream, all replies have been written before it. -/
def EndsDelivered (s : Owned) : Session.Action → Prop
  | .strand .readEnded => s.session.conn.Delivered
  | _ => True

instance (s : Owned) (action : Session.Action) : Decidable (s.EndsDelivered action) := by
  unfold EndsDelivered
  split <;> infer_instance

theorem endsDelivered_of_ne (h : action ≠ .strand .readEnded) : s.EndsDelivered action := by
  unfold EndsDelivered
  split
  · exact absurd rfl h
  · trivial

theorem step_eq_some (hs : s.step action = some s') :
    s.destroyed = false ∧ s.session.step action = some s'.session ∧ s'.destroyed = !s'.session.held := by
  unfold step at hs
  split at hs
  · cases hs
  · next hdestroyed =>
    obtain ⟨session, hsession, rfl⟩ := Option.map_eq_some_iff.1 hs
    exact ⟨Bool.eq_false_iff.2 hdestroyed, hsession, rfl⟩

/-- The session is peaceful, and it has not been destroyed exactly while something holds it. -/
structure Sound (s : Owned) : Prop where
  peaceful : s.session.Peaceful
  destroyed_eq : s.destroyed = !s.session.held

theorem sound_start (world : World) : (start world).Sound where
  peaceful := Session.peaceful_start world
  destroyed_eq := rfl

theorem Sound.step (h : s.Sound) (hexpected : action.expected = true)
    (hvalid : Session.Valid s.session.received) (hs : s.step action = some s') : s'.Sound := by
  obtain ⟨-, hsession, hdestroyed⟩ := step_eq_some hs
  exact ⟨h.peaceful.step hexpected hvalid hsession, hdestroyed⟩

/-- If the end of the stream has been seen, everything has been written. -/
def EndDelivered (s : Owned) : Prop := s.session.readers = 0 → s.session.conn.Delivered

/-- The end of the stream decides, and nothing after it changes that. -/
theorem Sound.step_endDelivered (h : s.Sound) (hexpected : action.expected = true)
    (hvalid : Session.Valid s.session.received) (hs : s.step action = some s') :
    s'.EndDelivered ↔ s.EndDelivered ∧ s.EndsDelivered action := by
  obtain ⟨hlive, hsession, -⟩ := step_eq_some hs
  have hheld : s.session.held = true := by simpa [hlive] using h.destroyed_eq
  have hsingle : s.session.readers ≤ 1 := h.peaceful.orderly.single
  unfold EndDelivered
  rcases h.peaceful.step_readers hexpected hvalid hsession with ⟨hne, hsame⟩ | ⟨rfl, hone⟩
  · rw [and_iff_left (endsDelivered_of_ne hne), hsame]
    refine imp_congr_right fun hended => ?_
    -- What holds the connection then is a `send_next`.
    have hnext := (h.peaceful.held_iff.1 hheld).resolve_left (by omega)
    exact h.peaceful.ended_step hended hnext hexpected hsession
  · have hended : s'.session.readers = 0 := by omega
    have hbefore : s.session.readers ≠ 0 := by omega
    simp [hended, hbefore, Session.step_readEnded hsession, EndsDelivered]

/-- **When a reply is lost with its connection.** A run without I/O error and
timeout, on a stream of valid frames, that has destroyed the connection has
left no reply pending exactly when, at the end of the stream, all replies had been written. -/
theorem run_nothingPending_iff {world : World} {actions : List Session.Action} {s : Owned}
    (hr : run step (start world) actions = some s) (hexpected : ∀ action ∈ actions, action.expected = true)
    (hvalid : Session.Valid s.session.received) (hdestroyed : s.destroyed = true) :
    s.session.conn.NothingPending ↔ Along step EndsDelivered (start world) actions := by
  have hback : ∀ s action s', step s action = some s' → Session.Valid s'.session.received →
      Session.Valid s.session.received :=
    fun s action s' hs h => h.of_step (step_eq_some hs).2.1
  have halong := (along_of_forall hexpected (start world)).and (along_of_reached hback hr hvalid).1
  have hsound : s.Sound :=
    halong.invariant (fun s action s' h hp hs => h.step hp.1 hp.2 hs) hr (sound_start world)
  have hiff : s.EndDelivered ↔ (start world).EndDelivered ∧ Along step EndsDelivered (start world) actions :=
    halong.reaches_iff (fun s action s' h hp hs => h.step hp.1 hp.2 hs)
      (fun s action s' h hp hs => h.step_endDelivered hp.1 hp.2 hs) hr (sound_start world)
  have hstart : (start world).EndDelivered := by
    intro hended
    simp [start, Session.start, Session.readers, Connection.reads, Connection.post] at hended
  have hfree : ¬ (0 < s.session.readers ∨ .sendNext ∈ s.session.conn.strand) := by
    rw [← hsound.peaceful.held_iff]
    simpa [hdestroyed] using hsound.destroyed_eq
  rw [not_or] at hfree
  have hended : s.session.readers = 0 := by omega
  calc s.session.conn.NothingPending
      ↔ s.session.conn.Delivered := hsound.peaceful.headPending.nothingPending_iff hfree.2
    _ ↔ s.EndDelivered := ⟨fun h _ => h, fun h => h hended⟩
    _ ↔ (start world).EndDelivered ∧ Along step EndsDelivered (start world) actions := hiff
    _ ↔ Along step EndsDelivered (start world) actions := and_iff_right hstart

/-- A GET of `a` with the id 7. -/
def getFrame : Bytes := [12, 0, 0, 0, 0, 1, 0, 0, 0, 97, 7, 0]

theorem valid_getFrame : Session.Valid getFrame := by
  have hfront : (frames readServer).front getFrame = .frame (.get ⟨[97], 7⟩) 12 := rfl
  have hrest : (frames readServer).parse [] = ⟨[], 0, .reading []⟩ :=
    Cutter.parse_more (frames readServer).front_nil
  refine ⟨[], ?_⟩
  rw [reference, Cutter.parse_frame hfront, show getFrame.drop 12 = [] from rfl, hrest]
  rfl

/-- The peer sends `getFrame`, and its GET is answered. -/
def answer : List Session.Action :=
  [.strand .run, .receive getFrame, .iterate 0, .store (.step 0), .store (.step 0), .respond 0, .iterate 0]

/-- The end of the stream is met when the reply has been written, and before its `send_next` is run. -/
def endAfterWrite : List Session.Action :=
  answer ++ [.strand .run, .strand (.writeDone 0), .strand .readEnded, .strand .run]

theorem run_nothingPending_iff_written :
    ∃ s, run step (start { store := {} }) endAfterWrite = some s ∧ s.session.replies.length = 1 ∧
      (s.session.conn.NothingPending ↔ Along step EndsDelivered (start { store := {} }) endAfterWrite) := by
  have hend : (run step (start { store := {} }) endAfterWrite).map (fun s =>
      (s.session.received, s.destroyed, s.session.replies.length)) = some (getFrame, true, 1) := by decide
  obtain ⟨s, hr, hfields⟩ := Option.map_eq_some_iff.1 hend
  simp only [Prod.mk.injEq] at hfields
  obtain ⟨hreceived, hdestroyed, hreplies⟩ := hfields
  have hvalid : Session.Valid s.session.received := hreceived ▸ valid_getFrame
  exact ⟨s, hr, hreplies, run_nothingPending_iff hr (by decide) hvalid hdestroyed⟩

/-- The end of the stream is met before the strand has run the `send` task of the reply. -/
def endBeforeSend : List Session.Action := answer ++ [.strand .readEnded]

/-- The connection is destroyed with the reply in its task. -/
theorem endBeforeSend_pending :
    ∃ s, run step (start { store := {} }) endBeforeSend = some s ∧
      (∀ action ∈ endBeforeSend, action.expected = true) ∧ Session.Valid s.session.received ∧
      s.destroyed = true ∧ s.session.conn.posted = s.session.replies.map .getResponse ∧
      s.session.replies ≠ [] ∧ ¬ s.session.conn.NothingPending := by
  have hend : (run step (start { store := {} }) endBeforeSend).map (fun s =>
      decide (s.session.received = getFrame ∧ s.destroyed = true ∧
        s.session.conn.posted = s.session.replies.map .getResponse ∧
        s.session.replies ≠ [] ∧ ¬ s.session.conn.NothingPending)) = some true := by decide
  obtain ⟨s, hr, hfields⟩ := Option.map_eq_some_iff.1 hend
  obtain ⟨hreceived, hlost⟩ := of_decide_eq_true hfields
  exact ⟨s, hr, by decide, hreceived ▸ valid_getFrame, hlost⟩

end Owned

end ConfigServer
