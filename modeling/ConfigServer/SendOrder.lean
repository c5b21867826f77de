/-
The order of the writes of a connection that is not closed. The messages whose
`send` task the strand has run are the buffers handed to `async_write`, in
order, and then what waits in the queue behind its head. As long as every
write succeeds the head is in the queue exactly while its write is in flight or
its `send_next` is pending, so the writes go out one at a time.
-/
import ConfigServer.SendQueue

namespace ConfigServer.Connection

open Runs

/-! ## What is sent -/

/-- The buffer a step puts behind those sent before: that of the `send` task it runs. -/
def sentBy (c : Connection) : Event → List Bytes
  | .run =>
    match c.strand with
    | .send cmd :: _ => (cmd.serialize.toOption.map MemoryWriter.buffer).toList
    | _ => []
  | _ => []

/-- The step runs a `close` task. -/
def closes (c : Connection) : Event → Bool
  | .run =>
    match c.strand with
    | .close _ :: _ => true
    | _ => false
  | _ => false

/-- The step is not a write that failed or was aborted. -/
def Event.succeeds : Event → Bool
  | .writeFailed _ => false
  | .writeAborted _ => false
  | _ => true

/-- The step runs no `close`, and no write fails in it. -/
def Undisturbed (c : Connection) (event : Event) : Prop := c.closes event = false ∧ event.succeeds = true

instance (c : Connection) (event : Event) : Decidable (Undisturbed c event) :=
  inferInstanceAs (Decidable (_ ∧ _))

/-! ## The order of a connection that is open -/

/-- An open connection that has sent `sent` so far. -/
structure Ordered (c : Connection) (sent : List Bytes) : Prop where
  inv : Inv c
  isOpen : c.isOpen = true
  sent_eq : sent = c.written ++ c.sendQueue.tail

theorem ordered_init : Ordered {} [] where
  inv := inv_init
  isOpen := rfl
  sent_eq := rfl

/-- A step that leaves socket, queue and writes alone keeps the order. -/
theorem Ordered.of_eq {c c' : Connection} {sent : List Bytes} (h : Ordered c sent) (hinv : Inv c')
    (hopen : c'.isOpen = c.isOpen) (hqueue : c'.sendQueue = c.sendQueue) (hwritten : c'.written = c.written) :
    Ordered c' sent :=
  ⟨hinv, hopen.trans h.isOpen, by rw [hwritten, hqueue]; exact h.sent_eq⟩

/-- What `send` does on an open socket: the buffer goes behind the queue, and
is written at once when there was nothing before it. -/
theorem runSend_fields {c c' : Connection} {cmd : Message} (hopen : c.isOpen = true)
    (hs : c.runSend cmd = some c') :
    ∃ writer, cmd.serialize = .ok writer ∧ c'.isOpen = c.isOpen ∧ c'.strand = c.strand ∧
      c'.sendQueue = c.sendQueue ++ [writer.buffer] ∧
      c'.written = c.written ++ (if c.sendQueue = [] then [writer.buffer] else []) ∧
      c'.inFlight = c.inFlight ++ (if c.sendQueue = [] then [writer.buffer] else []) := by
  unfold Connection.runSend at hs
  cases hw : cmd.serialize with
  | error what => simp [hopen, hw] at hs
  | ok writer =>
    refine ⟨writer, rfl, ?_⟩
    simp only [hopen, hw, Bool.not_true, Bool.false_eq_true, if_false, Option.some.injEq,
      Connection.resetIdleTimer] at hs
    subst hs
    cases hqueue : c.sendQueue with
    | nil => exact ⟨hopen.symm, rfl, rfl, rfl, rfl⟩
    | cons data rest => exact ⟨hopen.symm, rfl, rfl, (List.append_nil _).symm, (List.append_nil _).symm⟩

theorem Ordered.runSend {c c' : Connection} {sent : List Bytes} {cmd : Message} (h : Ordered c sent)
    (hs : c.runSend cmd = some c') :
    ∃ writer, cmd.serialize = .ok writer ∧ Ordered c' (sent ++ [writer.buffer]) := by
  obtain ⟨writer, hw, hopen, -, hqueue, hwritten, -⟩ := runSend_fields h.isOpen hs
  refine ⟨writer, hw, h.inv.runSend hs, hopen.trans h.isOpen, ?_⟩
  rw [h.sent_eq, hqueue, hwritten]
  cases c.sendQueue with
  | nil => simp
  | cons data rest => simp

/-- `send_next` writes the buffer behind the head it pops, if there is one. -/
theorem sendNext_fields {c : Connection} {data : Bytes} {rest : List Bytes}
    (hqueue : c.sendQueue = data :: rest) :
    c.sendNext.isOpen = c.isOpen ∧ c.sendNext.strand = c.strand ∧ c.sendNext.sendQueue = rest ∧
      c.sendNext.written = c.written ++ rest.head?.toList ∧
      c.sendNext.inFlight = c.inFlight ++ rest.head?.toList := by
  unfold Connection.sendNext
  rw [hqueue]
  cases rest with
  | nil => exact ⟨rfl, rfl, rfl, (List.append_nil _).symm, (List.append_nil _).symm⟩
  | cons next rest => exact ⟨rfl, rfl, rfl, rfl, rfl⟩

/-- While its `send_next` is posted the buffer written is the head of the queue. -/
theorem Ordered.head {c : Connection} {sent : List Bytes} {tasks : List Task} (h : Ordered c sent)
    (hstrand : c.strand = .sendNext :: tasks) : c.sendQueue ≠ [] := by
  have hle := h.inv.pending_le h.isOpen
  have hpos : 0 < c.pending := by
    simp only [pending, hstrand, List.count_cons_self]
    omega
  exact h.inv.head h.isOpen (by omega)

theorem Ordered.sendNext {c : Connection} {sent : List Bytes} {tasks : List Task} (h : Ordered c sent)
    (hstrand : c.strand = .sendNext :: tasks) :
    Ordered ({ c with strand := tasks } : Connection).sendNext sent := by
  have hinv := h.inv.sendNext hstrand h.isOpen
  obtain ⟨data, rest, hqueue⟩ := List.exists_cons_of_ne_nil (h.head hstrand)
  obtain ⟨hopen, -, hrest, hwritten, -⟩ := sendNext_fields (c := { c with strand := tasks }) hqueue
  refine ⟨hinv, hopen.trans h.isOpen, ?_⟩
  rw [h.sent_eq, hrest, hwritten, hqueue]
  cases rest with
  | nil => simp
  | cons next rest => simp

theorem Ordered.doRead {c : Connection} {sent : List Bytes} (h : Ordered c sent) : Ordered c.doRead sent := by
  refine h.of_eq h.inv.doRead ?_ ?_ ?_ <;> simp [Connection.doRead, Connection.resetIdleTimer, h.isOpen]

theorem Ordered.post {c : Connection} {sent : List Bytes} (h : Ordered c sent) {task : Task}
    (htask : task ≠ .sendNext) : Ordered (c.post task) sent :=
  h.of_eq (h.inv.post htask) rfl rfl rfl

/-- A step that runs no `close` keeps the order, behind what it sends. -/
theorem Ordered.step {c c' : Connection} {event : Event} {sent : List Bytes} (h : Ordered c sent)
    (hclose : c.closes event = false) (hs : c.step event = some c') :
    Ordered c' (sent ++ c.sentBy event) := by
  have hinv := h.inv.step (fun _ _ => h.isOpen) hs
  cases (step_spec hs).2 with
  | @run task tasks _ hstrand htask =>
    have hpop : Ordered { c with strand := tasks } sent := h.of_eq (h.inv.pop hstrand) rfl rfl rfl
    cases task with
    | read =>
      cases htask
      simpa [sentBy, hstrand] using hpop.doRead
    | send cmd =>
      obtain ⟨writer, hw, hordered⟩ := hpop.runSend htask
      simpa [sentBy, hstrand, hw, Except.toOption] using hordered
    | sendNext =>
      cases htask
      simpa [sentBy, hstrand] using h.sendNext hstrand
    | close cause => simp [closes, hstrand] at hclose
  | readDone hreading =>
    have hover : Ordered { c with reading := c.reading - 1 } sent := h.of_eq h.inv.readOver rfl rfl rfl
    simpa [sentBy] using hover.doRead
  | _ =>
    rw [show c.sentBy _ = [] from rfl, List.append_nil]
    exact h.of_eq hinv rfl rfl rfl

/-! ## One write at a time -/

/-- The queue has a head only while something will pop it. -/
def HeadPending (c : Connection) : Prop := c.pending = 0 → c.sendQueue = []

/-- Something in flight is pending. -/
theorem pending_ne_zero {c : Connection} (h : c.inFlight ≠ []) : c.pending ≠ 0 := by
  have hpos := List.length_pos_iff.2 h
  simp only [pending]
  omega

theorem HeadPending.of_eq {c c' : Connection} (h : HeadPending c) (hqueue : c'.sendQueue = c.sendQueue)
    (hpending : c'.pending = c.pending) : HeadPending c' := by
  intro hzero
  rw [hqueue]
  exact h (hpending.symm.trans hzero)

theorem pending_pop {c : Connection} {task : Task} {tasks : List Task} (hstrand : c.strand = task :: tasks)
    (htask : task ≠ .sendNext) : ({ c with strand := tasks } : Connection).pending = c.pending := by
  simp only [pending, hstrand, List.count_cons_of_ne htask]

theorem HeadPending.doRead {c : Connection} (h : HeadPending c) : HeadPending c.doRead := by
  unfold Connection.doRead
  split
  · exact h
  · exact h.of_eq rfl rfl

theorem HeadPending.runSend {c c' : Connection} {cmd : Message} (h : HeadPending c) (hopen : c.isOpen = true)
    (hs : c.runSend cmd = some c') : HeadPending c' := by
  obtain ⟨writer, -, -, hstrand, -, -, hinFlight⟩ := runSend_fields hopen hs
  intro hzero
  by_cases hempty : c.sendQueue = []
  · rw [if_pos hempty] at hinFlight
    exact absurd hzero (pending_ne_zero (by simp [hinFlight]))
  · -- A head was there already, so something was pending and still is.
    rw [if_neg hempty, List.append_nil] at hinFlight
    have hsame : c'.pending = c.pending := by simp only [pending, hinFlight, hstrand]
    exact absurd (h (hsame.symm.trans hzero)) hempty

theorem HeadPending.sendNext {c : Connection} {data : Bytes} {rest : List Bytes}
    (hqueue : c.sendQueue = data :: rest) : HeadPending c.sendNext := by
  obtain ⟨-, -, hrest, -, hinFlight⟩ := sendNext_fields hqueue
  intro hzero
  cases rest with
  | nil => exact hrest
  | cons next rest => exact absurd hzero (pending_ne_zero (by simp [hinFlight]))

theorem HeadPending.step {c c' : Connection} {event : Event} {sent : List Bytes} (h : HeadPending c)
    (hordered : Ordered c sent) (hund : Undisturbed c event) (hs : c.step event = some c') :
    HeadPending c' := by
  cases (step_spec hs).2 with
  | readCall => exact h.of_eq rfl (pending_post (by simp))
  | sendCall => exact h.of_eq rfl (pending_post (by simp))
  | @run task tasks _ hstrand htask =>
    cases task with
    | read =>
      cases htask
      have hpop : HeadPending { c with strand := tasks } := h.of_eq rfl (pending_pop hstrand (by simp))
      exact hpop.doRead
    | send cmd =>
      have hpop : HeadPending { c with strand := tasks } := h.of_eq rfl (pending_pop hstrand (by simp))
      exact hpop.runSend hordered.isOpen htask
    | sendNext =>
      cases htask
      obtain ⟨data, rest, hqueue⟩ := List.exists_cons_of_ne_nil (hordered.head hstrand)
      exact HeadPending.sendNext (c := { c with strand := tasks }) hqueue
    | close cause => simp [Undisturbed, closes, hstrand] at hund
  | writeDone hi => exact h.of_eq rfl (by rw [pending_post_sendNext, pending_eraseIdx hi])
  | writeFailed hi => simp [Undisturbed, Event.succeeds] at hund
  | writeAborted hi => simp [Undisturbed, Event.succeeds] at hund
  | readDone hreading =>
    have hover : HeadPending { c with reading := c.reading - 1 } := h.of_eq rfl rfl
    exact hover.doRead
  | readFailed hreading => exact h.of_eq rfl (pending_post (c := { c with reading := _ }) (by simp))
  | readEnded hreading => exact h.of_eq rfl rfl
  | timerExpired harmed => exact h.of_eq rfl rfl
  | timerHandler hqueued => exact h.of_eq rfl (pending_post (c := { c with timer := _ }) (by simp))

/-- **A connection that is not closed and whose writes succeed.** In every
state of the run at most one write is in flight, the queue is nonempty exactly
while a write is in flight or its `send_next` is posted, and the buffers
written, in order, followed by the queue behind its head are the messages whose
`send` task has been run, in the order they were run. -/
theorem run_sendOrder {events : List Event} {c : Connection} (halong : Along step Undisturbed {} events)
    (hr : run step {} events = some c) :
    c.inFlight.length ≤ 1 ∧ (c.sendQueue ≠ [] ↔ c.inFlight ≠ [] ∨ .sendNext ∈ c.strand) ∧
      outputs step sentBy {} events = c.written ++ c.sendQueue.tail := by
  obtain ⟨hordered, hpending⟩ : Ordered c ([] ++ outputs step sentBy {} events) ∧ HeadPending c :=
    halong.history (J := fun c sent => Ordered c sent ∧ HeadPending c)
      (fun c event c' sent h hund hs => ⟨h.1.step hund.1 hs, h.2.step h.1 hund hs⟩) hr
      ⟨ordered_init, fun _ => rfl⟩
  have hle := hordered.inv.pending_le hordered.isOpen
  refine ⟨Nat.le_trans (Nat.le_add_right _ _) hle, ?_, hordered.sent_eq⟩
  have hiff : c.pending ≠ 0 ↔ c.inFlight ≠ [] ∨ .sendNext ∈ c.strand := by
    rw [pending, Ne, Nat.add_eq_zero_iff, List.length_eq_zero_iff, List.count_eq_zero, not_and_or, not_not]
  rw [← hiff]
  constructor
  · intro hne hzero
    exact hne (hpending hzero)
  · intro hne
    exact hordered.inv.head hordered.isOpen (by omega)

/-- Two messages; the task of the second runs between the completion of the first and its `send_next`. -/
def sendWhileWriting : List Event :=
  [.sendCall (.get ⟨[97], 1⟩), .run, .sendCall (.get ⟨[98], 2⟩), .writeDone 0, .run, .run]

theorem run_sendOrder_twoSends :
    ∃ c, run step {} sendWhileWriting = some c ∧ c.inFlight.length ≤ 1 ∧
      (c.sendQueue ≠ [] ↔ c.inFlight ≠ [] ∨ .sendNext ∈ c.strand) ∧
      outputs step sentBy {} sendWhileWriting = c.written ++ c.sendQueue.tail := by
  have halong : Along step Undisturbed {} sendWhileWriting := by decide
  obtain ⟨c, hr⟩ : ∃ c, run step {} sendWhileWriting = some c := ⟨_, rfl⟩
  exact ⟨c, hr, run_sendOrder halong hr⟩

end ConfigServer.Connection
