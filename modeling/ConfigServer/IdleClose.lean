/-
Closing an idle connection takes three hops: the wait expires, its handler
posts `close`, the strand runs it. A reset of the timer aborts a wait that is
outstanding, but nothing of one that has expired. So a connection that has
shown activity since the expiry is closed as idle whenever the reset comes
while one of the later hops is still to be made.
-/
import ConfigServer.SendQueue

namespace ConfigServer.Connection

open Runs

/-! ## Idle closes on their way -/

/-- For each wait that has expired and whose `close` has not run, the resets there had been. -/
def idleCloses (c : Connection) : List Nat :=
  c.timer.queued ++ c.strand.filterMap fun task =>
    match task with
    | .close (.idle resets) => some resets
    | _ => none

/-- The step closes an open socket as idle although the timer was reset after the wait expired. -/
def closesActive (c : Connection) : Event → Bool
  | .run =>
    match c.strand with
    | .close (.idle resets) :: _ => c.isOpen && decide (resets < c.timer.resets)
    | _ => false
  | _ => false

/-- The task resets the timer when it is run. -/
def taskResets (c : Connection) : Task → Bool
  | .read => c.isOpen
  | .send _ => c.isOpen
  | .sendNext => decide (1 < c.sendQueue.length)
  | .close _ => false

/-- The step resets the timer. -/
def resetsTimer (c : Connection) : Event → Bool
  | .run =>
    match c.strand with
    | task :: _ => c.taskResets task
    | [] => false
  | .readDone => c.isOpen
  | _ => false

/-- A step that resets the timer does so while no idle close is on its way. -/
def ResetInTime (c : Connection) (event : Event) : Prop :=
  c.resetsTimer event = true → c.idleCloses = []

instance (c : Connection) (event : Event) : Decidable (ResetInTime c event) :=
  inferInstanceAs (Decidable (_ → _))

theorem mem_idleCloses {c : Connection} {resets : Nat} :
    resets ∈ c.idleCloses ↔ resets ∈ c.timer.queued ∨ .close (.idle resets) ∈ c.strand := by
  simp only [idleCloses, List.mem_append, List.mem_filterMap]
  refine or_congr_right ⟨?_, fun h => ⟨_, h, rfl⟩⟩
  rintro ⟨task, htask, heq⟩
  split at heq
  · cases heq
    exact htask
  · cases heq

/-! ## What the tasks change -/

theorem doWrite_frame (c : Connection) :
    c.doWrite.strand = c.strand ∧ c.doWrite.reading = c.reading ∧ c.doWrite.timer.queued = c.timer.queued ∧
      c.doWrite.isOpen = c.isOpen := by
  unfold doWrite
  split
  · exact ⟨rfl, rfl, rfl, rfl⟩
  · exact ⟨rfl, rfl, rfl, rfl⟩

/-- A task posts nothing and does not open the socket; only `read` starts a
read, if the socket is open, and only a task that resets the timer counts a reset. -/
theorem runTask_frame {c c' : Connection} {task : Task} (hs : c.runTask task = some c') :
    c'.strand = c.strand ∧ c'.reading = c.reading + (if task = .read ∧ c.isOpen = true then 1 else 0) ∧
      c'.timer.queued = c.timer.queued ∧ (c'.isOpen = true → c.isOpen = true) ∧
      (c.taskResets task = false → c'.timer.resets = c.timer.resets) := by
  have hother (htask : task ≠ .read) :
      c.reading = c.reading + (if task = .read ∧ c.isOpen = true then 1 else 0) := by simp [htask]
  cases task with
  | read =>
    cases hs
    unfold Connection.doRead
    split
    · next hclosed => exact ⟨rfl, by simpa using hclosed, rfl, id, fun _ => rfl⟩
    · next hopen =>
      simp only [Bool.not_eq_true, Bool.not_eq_false'] at hopen
      exact ⟨rfl, by simp [hopen, Connection.resetIdleTimer], rfl, id,
        fun h => absurd h (by simp [taskResets, hopen])⟩
  | send cmd =>
    simp only [Connection.runTask, Connection.runSend] at hs
    split at hs
    · cases hs
      exact ⟨rfl, hother (by simp), rfl, id, fun _ => rfl⟩
    · next hopen =>
      have hresets : c.taskResets (.send cmd) = true := by simpa [taskResets] using hopen
      have hnever {P : Prop} (h : c.taskResets (.send cmd) = false) : P :=
        absurd (hresets.symm.trans h) (by simp)
      split at hs
      · cases hs
      · simp only [Option.some.injEq] at hs
        subst hs
        split
        · obtain ⟨hstrand, hreading, hqueued, hopen'⟩ := doWrite_frame
            { c.resetIdleTimer with sendQueue := c.resetIdleTimer.sendQueue ++ [_] }
          exact ⟨hstrand, hreading.trans (hother (by simp)), hqueued, fun h => hopen'.symm.trans h, hnever⟩
        · exact ⟨rfl, hother (by simp), rfl, id, hnever⟩
  | sendNext =>
    cases hs
    unfold Connection.sendNext
    split
    · exact ⟨rfl, hother (by simp), rfl, id, fun _ => rfl⟩
    · next data rest hqueue =>
      cases rest with
      | nil => exact ⟨rfl, hother (by simp), rfl, id, fun _ => rfl⟩
      | cons next rest =>
        -- There is another buffer, and its write resets the timer.
        have hresets : c.taskResets .sendNext = true := by simp [taskResets, hqueue]
        exact ⟨rfl, hother (by simp), rfl, id, fun h => absurd (hresets.symm.trans h) (by simp)⟩
  | close cause =>
    cases hs
    unfold Connection.close
    split
    · exact ⟨rfl, hother (by simp), rfl, id, fun _ => rfl⟩
    · exact ⟨rfl, hother (by simp), rfl, fun h => absurd h Bool.false_ne_true, fun _ => rfl⟩

/-! ## No idle close is late -/

/-- On an open socket every idle close on its way is of the wait started by the last reset. -/
def Timely (c : Connection) : Prop :=
  c.isOpen = true → ∀ resets ∈ c.idleCloses, resets = c.timer.resets

theorem timely_init : Timely {} := by
  intro _ resets hmem
  cases hmem

/-- A step that adds no idle close and does not reset the timer. -/
theorem Timely.of_subset {c c' : Connection} (h : Timely c) (hopen : c'.isOpen = true → c.isOpen = true)
    (hcloses : ∀ resets ∈ c'.idleCloses, resets ∈ c.idleCloses)
    (hresets : c'.timer.resets = c.timer.resets) : Timely c' := by
  intro hc' resets hmem
  rw [hresets]
  exact h (hopen hc') resets (hcloses resets hmem)

/-- A step after which no idle close is on its way. -/
theorem timely_of_nil {c : Connection} (h : ∀ resets, resets ∉ c.idleCloses) : Timely c :=
  fun _ resets hmem => absurd hmem (h resets)

theorem Timely.post {c : Connection} (h : Timely c) {task : Task}
    (htask : ∀ resets, task ≠ .close (.idle resets)) : Timely (c.post task) := by
  refine h.of_subset id (fun resets hmem => ?_) rfl
  rw [mem_idleCloses] at hmem ⊢
  refine hmem.imp_right fun hstrand => ?_
  rcases List.mem_append.1 hstrand with hmem | hmem
  · exact hmem
  · exact absurd (List.mem_singleton.1 hmem).symm (htask resets)

theorem Timely.doRead {c : Connection} (h : Timely c) (hintime : c.isOpen = true → c.idleCloses = []) :
    Timely c.doRead := by
  unfold Connection.doRead
  split
  · exact h
  · next hopen =>
    have hnil := hintime (by simpa using hopen)
    refine timely_of_nil fun resets hmem => ?_
    have hmem' : resets ∈ c.idleCloses := hmem
    rw [hnil] at hmem'
    cases hmem'

theorem Timely.runTask {c c' : Connection} {task : Task} {tasks : List Task} (h : Timely c)
    (hstrand : c.strand = task :: tasks) (hintime : ResetInTime c .run)
    (hs : ({ c with strand := tasks } : Connection).runTask task = some c') : Timely c' := by
  obtain ⟨hstrand', -, hqueued, hopen, hresets⟩ := runTask_frame hs
  have hcloses (resets : Nat) (hmem : resets ∈ c'.idleCloses) : resets ∈ c.idleCloses := by
    rw [mem_idleCloses, hstrand', hqueued] at hmem
    rw [mem_idleCloses, hstrand]
    exact hmem.imp_right (List.mem_cons_of_mem task)
  cases htask : c.taskResets task with
  | false => exact h.of_subset hopen hcloses (hresets htask)
  | true =>
    have hnil : c.idleCloses = [] := hintime (by simpa [resetsTimer, hstrand] using htask)
    refine timely_of_nil fun resets hmem => ?_
    have hmem' := hcloses resets hmem
    rw [hnil] at hmem'
    cases hmem'

theorem Timely.step {c c' : Connection} {event : Event} (h : Timely c) (hintime : ResetInTime c event)
    (hs : c.step event = some c') : Timely c' := by
  cases (step_spec hs).2 with
  | readCall => exact h.post (by simp)
  | sendCall => exact h.post (by simp)
  | run hstrand htask => exact h.runTask hstrand hintime htask
  | writeDone hi => exact Timely.post (c := { c with inFlight := _ }) h (by simp)
  | writeFailed hi => exact Timely.post (c := { c with inFlight := _ }) h (by simp)
  | writeAborted hi => exact h
  | readDone hreading =>
    have hover : Timely { c with reading := c.reading - 1 } := h
    exact hover.doRead hintime
  | readFailed hreading => exact Timely.post (c := { c with reading := _ }) h (by simp)
  | readEnded hreading => exact h
  | timerExpired harmed =>
    intro hopen resets hmem
    rw [mem_idleCloses] at hmem
    rcases hmem with hqueued | hstrand
    · rcases List.mem_append.1 hqueued with hmem | hmem
      · exact h hopen resets (mem_idleCloses.2 (.inl hmem))
      · exact List.mem_singleton.1 hmem
    · exact h hopen resets (mem_idleCloses.2 (.inr hstrand))
  | @timerHandler expired rest hqueued =>
    -- The close the handler posts takes the place of the handler.
    refine h.of_subset id (fun resets hmem => ?_) rfl
    rw [mem_idleCloses] at hmem
    rw [mem_idleCloses, hqueued]
    rcases hmem with hmem | hmem
    · exact .inl (List.mem_cons_of_mem expired hmem)
    · rcases List.mem_append.1 hmem with hmem | hmem
      · exact .inr hmem
      · have heq : resets = expired := by simpa using hmem
        exact .inl (heq ▸ List.mem_cons_self)

theorem Timely.not_closesActive {c : Connection} (h : Timely c) (event : Event) :
    c.closesActive event = false := by
  by_contra hactive
  rw [Bool.not_eq_false] at hactive
  unfold closesActive at hactive
  split at hactive
  · split at hactive
    · next resets tasks hstrand =>
      simp only [Bool.and_eq_true, decide_eq_true_eq] at hactive
      have heq := h hactive.1 resets (mem_idleCloses.2 (.inr (hstrand ▸ List.mem_cons_self)))
      omega
    · cases hactive
  · cases hactive

/-- **In a run whose resets of the timer all come while no idle close is on
its way, no connection with activity since the expiry is closed as idle.** -/
theorem run_closesIdle {events : List Event} (halong : Along step ResetInTime {} events) :
    Along step (fun c event => c.closesActive event = false) {} events :=
  halong.of_invariant (fun _ event h _ => h.not_closesActive event)
    (fun _ _ _ h hintime hs => h.step hintime hs) timely_init

/-- A connection that is idle until its wait expires. -/
def idleUntilExpiry : List Event := [.readCall, .run, .timerExpired, .timerHandler, .run]

theorem run_closesIdle_expiry :
    Along step (fun c event => c.closesActive event = false) {} idleUntilExpiry :=
  run_closesIdle (by decide)

/-- A message is sent between the expiry and the run of its handler. -/
def sendAfterExpiry : List Event :=
  [.readCall, .run, .timerExpired, .sendCall (.get ⟨[97], 1⟩), .run, .timerHandler, .run]

theorem sendAfterExpiry_closesActive :
    ¬ Along step (fun c event => c.closesActive event = false) {} sendAfterExpiry := by
  decide

end ConfigServer.Connection
