/-
The send queue of a connection over any run. While the socket is open at most
one of "a write in flight" and "a `send_next` posted" is pending, and while it
is pending the queue has a head: so `do_write` always finds a front. `close`
empties the queue, though, without taking back a `send_next` already posted
or still to be posted by a write that succeeded. So the queue is safe in
exactly the runs in which no `send_next` is run once the socket is closed
(`sendQueue_safe_iff`).
-/
import ConfigServer.Connection

namespace ConfigServer.Connection

open Runs

/-! ## The steps of a connection -/

/-- A step of a connection that has not faulted, by its event. -/
inductive Step (c : Connection) : Event → Connection → Prop
  | readCall : Step c .readCall (c.post .read)
  | sendCall {cmd : Message} : Step c (.sendCall cmd) (c.post (.send cmd))
  | run {task : Task} {tasks : List Task} {c' : Connection} (hstrand : c.strand = task :: tasks)
    (htask : ({ c with strand := tasks } : Connection).runTask task = some c') : Step c .run c'
  | writeDone {i : Nat} (hi : i < c.inFlight.length) :
    Step c (.writeDone i) ({ c with inFlight := c.inFlight.eraseIdx i }.post .sendNext)
  | writeFailed {i : Nat} (hi : i < c.inFlight.length) :
    Step c (.writeFailed i) ({ c with inFlight := c.inFlight.eraseIdx i }.post (.close .write))
  | writeAborted {i : Nat} (hi : i < c.inFlight.length) :
    Step c (.writeAborted i) { c with inFlight := c.inFlight.eraseIdx i }
  | readDone (hreading : 0 < c.reading) : Step c .readDone { c with reading := c.reading - 1 }.doRead
  | readFailed (hreading : 0 < c.reading) :
    Step c .readFailed ({ c with reading := c.reading - 1 }.post (.close .read))
  | readEnded (hreading : 0 < c.reading) : Step c .readEnded { c with reading := c.reading - 1 }
  | timerExpired (harmed : c.timer.armed = true) :
    Step c .timerExpired
      { c with timer := { c.timer with armed := false, queued := c.timer.queued ++ [c.timer.resets] } }
  | timerHandler {resets : Nat} {rest : List Nat} (hqueued : c.timer.queued = resets :: rest) :
    Step c .timerHandler ({ c with timer := { c.timer with queued := rest } }.post (.close (.idle resets)))

theorem complete_eq_some {c c' : Connection} {i : Nat} {task : Option Task}
    (h : c.complete i task = some c') :
    i < c.inFlight.length ∧
      c' = { c with inFlight := c.inFlight.eraseIdx i, strand := c.strand ++ task.toList } := by
  unfold complete at h
  split at h
  · next hi => exact ⟨hi, (Option.some.inj h).symm⟩
  · cases h

theorem completeRead_eq_some {c c' : Connection} (h : c.completeRead = some c') :
    0 < c.reading ∧ c' = { c with reading := c.reading - 1 } := by
  unfold completeRead at h
  split at h
  · next hreading => exact ⟨hreading, (Option.some.inj h).symm⟩
  · cases h

theorem step_spec {c c' : Connection} {event : Event} (h : c.step event = some c') :
    c.fault = none ∧ Step c event c' := by
  unfold step at h
  split at h
  · cases h
  · next hfault =>
    refine ⟨Option.not_isSome_iff_eq_none.1 hfault, ?_⟩
    cases event with
    | readCall => exact Option.some.inj h ▸ .readCall
    | sendCall cmd => exact Option.some.inj h ▸ .sendCall
    | run =>
      dsimp only at h
      split at h
      · cases h
      · next task tasks hstrand => exact .run hstrand h
    | writeDone i =>
      obtain ⟨hi, rfl⟩ := complete_eq_some h
      exact .writeDone hi
    | writeFailed i =>
      obtain ⟨hi, rfl⟩ := complete_eq_some h
      exact .writeFailed hi
    | writeAborted i =>
      obtain ⟨hi, rfl⟩ := complete_eq_some h
      rw [Option.toList_none, List.append_nil]
      exact .writeAborted hi
    | readDone =>
      obtain ⟨d, hd, rfl⟩ := Option.map_eq_some_iff.1 h
      obtain ⟨hreading, rfl⟩ := completeRead_eq_some hd
      exact .readDone hreading
    | readFailed =>
      obtain ⟨d, hd, rfl⟩ := Option.map_eq_some_iff.1 h
      obtain ⟨hreading, rfl⟩ := completeRead_eq_some hd
      exact .readFailed hreading
    | readEnded =>
      obtain ⟨hreading, rfl⟩ := completeRead_eq_some h
      exact .readEnded hreading
    | timerExpired =>
      dsimp only at h
      split at h
      · next harmed => exact Option.some.inj h ▸ .timerExpired harmed
      · cases h
    | timerHandler =>
      dsimp only at h
      split at h
      · cases h
      · next resets rest hqueued => exact Option.some.inj h ▸ .timerHandler hqueued

/-! ## What is pending -/

/-- Writes in flight and `send_next` tasks posted: each will pop the queue once. -/
def pending (c : Connection) : Nat := c.inFlight.length + c.strand.count .sendNext

/-- What holds of a connection between its steps, until one of them faults. -/
structure Inv (c : Connection) : Prop where
  noFault : c.fault = none
  pending_le : c.isOpen = true → c.pending ≤ 1
  head : c.isOpen = true → c.pending = 1 → c.sendQueue ≠ []
  closed : c.isOpen = false → c.sendQueue = []

theorem inv_init : Inv {} where
  noFault := rfl
  pending_le _ := by simp [pending]
  head _ h := by simp [pending] at h
  closed h := by simp at h

/-- A step that leaves queue, socket and fault alone and what is pending no larger keeps the invariant. -/
theorem Inv.of_eq {c c' : Connection} (h : Inv c) (hfault : c'.fault = c.fault) (hopen : c'.isOpen = c.isOpen)
    (hqueue : c'.sendQueue = c.sendQueue) (hpending : c'.pending ≤ c.pending) : Inv c' where
  noFault := by rw [hfault]; exact h.noFault
  pending_le ho := by
    rw [hopen] at ho
    exact Nat.le_trans hpending (h.pending_le ho)
  head ho hp := by
    rw [hopen] at ho
    rw [hqueue]
    have hle := h.pending_le ho
    exact h.head ho (by omega)
  closed ho := by
    rw [hopen] at ho
    rw [hqueue]
    exact h.closed ho

/-- An open connection with nothing in its queue has nothing pending. -/
theorem Inv.idle {c : Connection} (h : Inv c) (hopen : c.isOpen = true) (hempty : c.sendQueue = []) :
    c.pending = 0 := by
  have hle := h.pending_le hopen
  by_contra hne
  exact h.head hopen (by omega) hempty

theorem pending_post {c : Connection} {task : Task} (h : task ≠ .sendNext) :
    (c.post task).pending = c.pending := by
  simp [pending, post, List.count_append, h]

theorem pending_post_sendNext (c : Connection) : (c.post .sendNext).pending = c.pending + 1 := by
  simp [pending, post, List.count_append, Nat.add_assoc]

theorem Inv.post {c : Connection} (h : Inv c) {task : Task} (htask : task ≠ .sendNext) : Inv (c.post task) :=
  h.of_eq rfl rfl rfl (Nat.le_of_eq (pending_post htask))

/-! ## The tasks -/

theorem Inv.doRead {c : Connection} (h : Inv c) : Inv c.doRead := by
  unfold Connection.doRead
  split
  · exact h
  · exact h.of_eq rfl rfl rfl (Nat.le_refl _)

/-- `do_write` on a queue with a head, nothing else pending. -/
theorem doWrite_inv {c : Connection} (hfault : c.fault = none) (hopen : c.isOpen = true)
    (hqueue : c.sendQueue ≠ []) (hpending : c.pending = 0) : Inv c.doWrite := by
  unfold doWrite
  split
  · next hnil => exact absurd hnil hqueue
  · next data rest hcons =>
    have hone : ({ c.resetIdleTimer with
        inFlight := c.resetIdleTimer.inFlight ++ [data]
        written := c.resetIdleTimer.written ++ [data] } : Connection).pending = 1 := by
      simp only [pending, Connection.resetIdleTimer, List.length_append, List.length_singleton] at hpending ⊢
      omega
    exact ⟨hfault, fun _ => Nat.le_of_eq hone, fun _ _ => hqueue,
      fun hclosed => absurd (hopen.symm.trans hclosed) (by simp)⟩

theorem Inv.runSend {c c' : Connection} {cmd : Message} (h : Inv c) (hs : c.runSend cmd = some c') :
    Inv c' := by
  unfold Connection.runSend at hs
  split at hs
  · cases hs
    exact h
  · next hopen =>
    simp only [Bool.not_eq_true, Bool.not_eq_false'] at hopen
    dsimp only at hs
    split at hs
    · cases hs
    · next writer hw =>
      simp only [Option.some.injEq] at hs
      subst hs
      split
      · next hempty =>
        -- Nothing was being written, so the new head starts a write.
        simp only [Connection.resetIdleTimer, Bool.not_not, List.isEmpty_iff] at hempty
        exact doWrite_inv h.noFault hopen (by simp) (h.idle hopen hempty)
      · exact ⟨h.noFault, h.pending_le, fun _ _ => by simp,
          fun hclosed => absurd (hopen.symm.trans hclosed) (by simp)⟩

theorem Inv.close {c : Connection} (h : Inv c) : Inv c.close := by
  unfold Connection.close
  split
  · exact h
  · exact ⟨h.noFault, (fun ho => nomatch ho), (fun ho => nomatch ho), fun _ => rfl⟩

/-- `send_next` popped from the strand of an open connection finds the written buffer in the queue. -/
theorem Inv.sendNext {c : Connection} (h : Inv c) {tasks : List Task}
    (hstrand : c.strand = .sendNext :: tasks)
    (hopen : c.isOpen = true) : Inv ({ c with strand := tasks } : Connection).sendNext := by
  have hcount : c.pending = ({ c with strand := tasks } : Connection).pending + 1 := by
    simp only [pending, hstrand, List.count_cons_self]
    omega
  have hle := h.pending_le hopen
  have hqueue := h.head hopen (by omega)
  unfold Connection.sendNext
  split
  · next hnil => exact absurd hnil hqueue
  · next data rest hcons =>
    have hzero : ({ c with strand := tasks, sendQueue := rest } : Connection).pending = 0 := by
      simp only [pending] at hcount hle ⊢
      omega
    dsimp only
    split
    · next hmore => exact doWrite_inv h.noFault hopen (by simpa using hmore) hzero
    · next hlast =>
      refine ⟨h.noFault, fun _ => by omega, fun _ hp => absurd (hzero.symm.trans hp) (by simp), fun _ => ?_⟩
      simpa using hlast

/-! ## The invariant and the steps -/

/-- If the step runs a `send_next`, the socket is still open. -/
def SendNextOpen (c : Connection) (event : Event) : Prop :=
  event = .run → c.strand.head? = some .sendNext → c.isOpen = true

instance (c : Connection) (event : Event) : Decidable (SendNextOpen c event) :=
  inferInstanceAs (Decidable (_ → _ → _))

theorem Inv.pop {c : Connection} {task : Task} {tasks : List Task} (h : Inv c)
    (hstrand : c.strand = task :: tasks) : Inv { c with strand := tasks } := by
  refine h.of_eq rfl rfl rfl ?_
  simp only [pending, hstrand]
  exact Nat.add_le_add_left List.count_le_count_cons _

theorem Inv.runTask {c c' : Connection} {task : Task} {tasks : List Task} (h : Inv c)
    (hcond : SendNextOpen c .run) (hstrand : c.strand = task :: tasks)
    (hs : ({ c with strand := tasks } : Connection).runTask task = some c') : Inv c' := by
  have hpop := h.pop hstrand
  cases task with
  | read => exact Option.some.inj hs ▸ hpop.doRead
  | send cmd => exact hpop.runSend hs
  | close cause => exact Option.some.inj hs ▸ hpop.close
  | sendNext => exact Option.some.inj hs ▸ h.sendNext hstrand (hcond rfl (by rw [hstrand]; rfl))

theorem Inv.readOver {c : Connection} (h : Inv c) : Inv { c with reading := c.reading - 1 } :=
  h.of_eq rfl rfl rfl (Nat.le_refl _)

/-- A write leaves the wire. -/
theorem pending_eraseIdx {c : Connection} {i : Nat} (hi : i < c.inFlight.length) :
    ({ c with inFlight := c.inFlight.eraseIdx i } : Connection).pending + 1 = c.pending := by
  simp only [pending, List.length_eraseIdx_of_lt hi]
  omega

theorem Inv.writeOver {c : Connection} (h : Inv c) {i : Nat} (hi : i < c.inFlight.length) :
    Inv { c with inFlight := c.inFlight.eraseIdx i } := by
  have hpending := pending_eraseIdx hi
  exact h.of_eq rfl rfl rfl (by omega)

/-- At most one `send_next` takes its place. -/
theorem Inv.writeDone {c : Connection} (h : Inv c) {i : Nat} (hi : i < c.inFlight.length) :
    Inv ({ c with inFlight := c.inFlight.eraseIdx i }.post .sendNext) := by
  refine h.of_eq rfl rfl rfl ?_
  rw [pending_post_sendNext, pending_eraseIdx hi]

/-- A step that runs no `send_next` on a closed socket keeps the invariant. -/
theorem Inv.step {c c' : Connection} {event : Event} (h : Inv c) (hcond : SendNextOpen c event)
    (hs : c.step event = some c') : Inv c' := by
  cases (step_spec hs).2 with
  | readCall => exact h.post (by simp)
  | sendCall => exact h.post (by simp)
  | run hstrand htask => exact h.runTask hcond hstrand htask
  | writeDone hi => exact h.writeDone hi
  | writeFailed hi => exact (h.writeOver hi).post (by simp)
  | writeAborted hi => exact h.writeOver hi
  | readDone hreading => exact h.readOver.doRead
  | readFailed hreading => exact h.readOver.post (by simp)
  | readEnded hreading => exact h.readOver
  | timerExpired harmed => exact h.of_eq rfl rfl rfl (Nat.le_refl _)
  | @timerHandler resets rest hqueued =>
    have hpop : Inv { c with timer := { c.timer with queued := rest } } := h.of_eq rfl rfl rfl (Nat.le_refl _)
    exact hpop.post (by simp)

/-- A `send_next` on a closed socket pops the queue `close` has emptied. -/
theorem Inv.step_pop {c : Connection} {event : Event} (h : Inv c) (hcond : ¬ SendNextOpen c event) :
    ∃ c', c.step event = some c' ∧ c'.fault = some .popEmpty := by
  simp only [SendNextOpen, Classical.not_imp, Bool.not_eq_true] at hcond
  obtain ⟨rfl, hhead, hopen⟩ := hcond
  obtain ⟨tasks, hstrand⟩ := List.head?_eq_some_iff.1 hhead
  have hempty := h.closed hopen
  refine ⟨{ c with strand := tasks, fault := some .popEmpty }, ?_, rfl⟩
  simp [Connection.step, h.noFault, hstrand, Connection.runTask, Connection.sendNext, hempty]

theorem step_of_fault {c : Connection} (h : c.fault ≠ none) (event : Event) : c.step event = none := by
  have hsome : c.fault.isSome = true := Option.isSome_iff_ne_none.2 h
  unfold Connection.step
  rw [if_pos hsome]

theorem runTask_closed_written {c c' : Connection} {task : Task} (hopen : c.isOpen = false)
    (hempty : c.sendQueue = []) (hs : c.runTask task = some c') :
    c'.isOpen = false ∧ c'.written = c.written := by
  cases task with
  | read =>
    cases hs
    simp [Connection.doRead, hopen]
  | send cmd =>
    simp only [Connection.runTask, Connection.runSend, hopen, Bool.not_false, if_true] at hs
    cases hs
    exact ⟨hopen, rfl⟩
  | sendNext =>
    cases hs
    simp [Connection.sendNext, hempty, hopen]
  | close cause =>
    cases hs
    simp [Connection.close, hopen]

/-- On a closed socket no step starts a write. -/
theorem Inv.closed_step {c c' : Connection} {event : Event} (h : Inv c) (hopen : c.isOpen = false)
    (hs : c.step event = some c') : c'.isOpen = false ∧ c'.written = c.written := by
  cases (step_spec hs).2 with
  | @run task tasks _ hstrand htask =>
    exact runTask_closed_written (c := { c with strand := tasks }) hopen (h.closed hopen) htask
  | readDone hreading => simp [Connection.doRead, hopen]
  | _ => exact ⟨hopen, rfl⟩

/-! ## Runs -/

/-- In any run `do_write` finds a front to take. -/
theorem run_front {events : List Event} {c : Connection} (hr : run step {} events = some c) :
    c.fault ≠ some .frontEmpty := by
  have h : Inv c ∨ c.fault = some .popEmpty := by
    refine invariant (I := fun c => Inv c ∨ c.fault = some .popEmpty) (fun c event c' h hs => ?_) hr
      (.inl inv_init)
    rcases h with h | h
    · by_cases hcond : SendNextOpen c event
      · exact .inl (h.step hcond hs)
      · obtain ⟨d, hd, hpop⟩ := h.step_pop hcond
        exact .inr (Option.some.inj (hd.symm.trans hs) ▸ hpop)
    · rw [step_of_fault (by simp [h])] at hs
      cases hs
  rcases h with h | h
  · simp [h.noFault]
  · simp [h]

/-- In every state of the run the queue has never been popped or read while
empty; once the socket is closed the queue is empty, and no later state of the
run has started another write. -/
def SendQueueSafe (events : List Event) : Prop :=
  ∀ before middle after c, events = before ++ middle ++ after → run step {} before = some c →
    c.fault = none ∧
      (c.isOpen = false → c.sendQueue = [] ∧ ∀ c', run step c middle = some c' → c'.written = c.written)

theorem along_inv {events : List Event} {c c' : Connection} (h : Inv c)
    (halong : Along step SendNextOpen c events) (hr : run step c events = some c') : Inv c' :=
  halong.invariant (fun _ _ _ h hcond hs => h.step hcond hs) hr h

theorem along_written {events : List Event} {c c' : Connection} (h : Inv c) (hopen : c.isOpen = false)
    (halong : Along step SendNextOpen c events) (hr : run step c events = some c') :
    c'.written = c.written := by
  have hend : Inv c' ∧ c'.isOpen = false ∧ c'.written = c.written := by
    refine halong.invariant (I := fun d => Inv d ∧ d.isOpen = false ∧ d.written = c.written)
      (fun d event d' ⟨hd, hdo, hdw⟩ hcond hs => ?_) hr ⟨h, hopen, rfl⟩
    obtain ⟨ho, hw⟩ := hd.closed_step hdo hs
    exact ⟨hd.step hcond hs, ho, hw.trans hdw⟩
  exact hend.2.2

/-- A run with no fault in any of its states has run no `send_next` on a closed socket. -/
theorem along_of_noFault {events : List Event} {c : Connection} (h : Inv c)
    (hsafe : ∀ before after c', events = before ++ after → run step c before = some c' → c'.fault = none) :
    Along step SendNextOpen c events := by
  induction events generalizing c with
  | nil => trivial
  | cons event events ih =>
    have hcond : SendNextOpen c event := by
      by_contra hbad
      obtain ⟨c', hs, hpop⟩ := h.step_pop hbad
      have hfault := hsafe [event] events c' rfl (run_cons.2 ⟨c', hs, rfl⟩)
      exact absurd (hpop.symm.trans hfault) (by simp)
    refine ⟨hcond, fun c' hs => ih (h.step hcond hs) fun before after c'' heq hr => ?_⟩
    exact hsafe (event :: before) after c'' (by rw [heq]; rfl) (run_cons.2 ⟨c', hs, hr⟩)

/-- **The send queue is safe along a run exactly when the run never runs a
`send_next` after the socket was closed.** -/
theorem sendQueue_safe_iff (events : List Event) :
    SendQueueSafe events ↔ Along step SendNextOpen {} events := by
  constructor
  · intro hsafe
    refine along_of_noFault inv_init fun before after c heq hr => ?_
    exact (hsafe before [] after c (by rw [heq, List.append_nil]) hr).1
  · rintro halong before middle after c rfl hr
    rw [List.append_assoc] at halong
    obtain ⟨hbefore, hrest⟩ := halong.append hr
    have h := along_inv inv_init hbefore hr
    refine ⟨h.noFault, fun hopen => ⟨h.closed hopen, fun c' hr' => ?_⟩⟩
    exact along_written h hopen (hrest.append hr').1 hr'

/-- A read error posts `close` while a write is in flight, and the write succeeds. -/
def closeBeforeSendNext : List Event :=
  [.readCall, .run, .sendCall (.get ⟨[97], 1⟩), .run, .readFailed, .writeDone 0, .run, .run]

theorem closeBeforeSendNext_not_safe : ¬ SendQueueSafe closeBeforeSendNext := by
  intro hsafe
  have hpop : (run step {} closeBeforeSendNext).map fault = some (some .popEmpty) := by decide
  obtain ⟨c, hr, hfault⟩ := Option.map_eq_some_iff.1 hpop
  have hnone := (hsafe closeBeforeSendNext [] [] c (by simp) hr).1
  exact absurd (hfault.symm.trans hnone) (by simp)

end ConfigServer.Connection
