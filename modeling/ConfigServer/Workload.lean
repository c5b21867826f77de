/-
How much work a session does. Each byte that a session receives costs it at most
five steps: of the handler that reads it, of the dispatcher, of the strand and of
the writes of its replies. Whatever others do, it takes no more steps than that,
but for two at most for each error, timeout or other event from outside.
-/
import ConfigServer.Settled

namespace ConfigServer

open Framing Receiver Runs

/-! ## What a step is for -/

inductive Session.Work
  /-- The strand runs a task. -/
  | task
  /-- A write succeeds. -/
  | write
  /-- A read brings some bytes. -/
  | read
  | iterate
  | respond
  /-- An error, a timeout, the end of the stream, a read of nothing. -/
  | other
deriving DecidableEq

def Session.Action.work : Session.Action → Session.Work
  | .strand .run => .task
  | .strand (.writeDone _) => .write
  | .receive (_ :: _) => .read
  | .iterate _ => .iterate
  | .respond _ => .respond
  | _ => .other

/-- One for a step of this kind. -/
def Session.Work.of (kind work : Session.Work) : Nat := if work = kind then 1 else 0

/-- How often the steps were of this kind. -/
def Session.done (own : List Session.Action) (kind : Session.Work) : Nat :=
  (own.map Session.Action.work).count kind

/-- The steps that session `i` has taken itself. -/
def Server.ownSteps (i : Nat) (as : List Server.Action) : List Session.Action :=
  as.filterMap fun
    | .session j action => if j = i then some action else none
    | _ => none

/-! ## The connection -/

namespace Connection

variable {c c' : Connection}

/-- A buffer that is handed to `async_write` is in flight. -/
theorem doWrite_inFlight (c : Connection) :
    c.doWrite.inFlight.length + c.written.length = c.inFlight.length + c.doWrite.written.length := by
  unfold doWrite
  split
  · rfl
  · simp only [resetIdleTimer, List.length_append, List.length_singleton]
    omega

theorem runTask_inFlight {task : Task} (hs : c.runTask task = some c') :
    c'.inFlight.length + c.written.length = c.inFlight.length + c'.written.length := by
  cases task with
  | read =>
    cases hs
    unfold Connection.doRead
    split <;> rfl
  | send cmd =>
    simp only [runTask, runSend] at hs
    split at hs
    · cases hs
      rfl
    · split at hs
      · cases hs
      · simp only [Option.some.injEq] at hs
        subst hs
        split
        · exact doWrite_inFlight { c.resetIdleTimer with sendQueue := _ }
        · rfl
  | sendNext =>
    cases hs
    unfold sendNext
    split
    · rfl
    · next data rest hqueue =>
      dsimp only
      split
      · exact doWrite_inFlight { c with sendQueue := rest }
      · rfl
  | close cause =>
    cases hs
    unfold close
    split <;> rfl

/-- A write that completes is in flight no more. A task that is run was posted; one is
posted when a write succeeds, and one at most by anything else that happens. -/
theorem step_pays {event : Event} (hout : event.outside = true) (hs : c.step event = some c') :
    Session.Work.write.of (Session.Action.strand event).work + c'.inFlight.length + c.written.length ≤
        c.inFlight.length + c'.written.length ∧
      Session.Work.task.of (Session.Action.strand event).work + c'.strand.length ≤
        c.strand.length + Session.Work.write.of (Session.Action.strand event).work +
          Session.Work.other.of (Session.Action.strand event).work := by
  have hpost (d : Connection) (task : Task) : (d.post task).strand.length = d.strand.length + 1 := by
    simp [Connection.post]
  cases (step_spec hs).2 with
  | readCall => cases hout
  | sendCall => cases hout
  | readDone hreading => cases hout
  | @run task tasks _ hstrand htask =>
    have hinFlight := runTask_inFlight htask
    have hrest := (runTask_frame htask).1
    dsimp only at hinFlight
    rw [hrest, hstrand, List.length_cons]
    simp only [Session.Action.work, Session.Work.of, reduceCtorEq, if_false, if_true]
    omega
  | writeDone hi =>
    have hlength := List.length_eraseIdx_of_lt hi
    rw [hpost]
    simp only [Connection.post, Session.Action.work, Session.Work.of, reduceCtorEq, if_false, if_true, hlength]
    omega
  | writeFailed hi =>
    have hlength := List.length_eraseIdx_of_lt hi
    rw [hpost]
    simp only [Connection.post, Session.Action.work, Session.Work.of, reduceCtorEq, if_false, if_true, hlength]
    omega
  | writeAborted hi =>
    have hlength := List.length_eraseIdx_of_lt hi
    simp only [Session.Action.work, Session.Work.of, reduceCtorEq, if_false, if_true, hlength]
    omega
  | readFailed hreading =>
    rw [hpost]
    simp only [Connection.post, Session.Action.work, Session.Work.of, reduceCtorEq, if_false, if_true]
    omega
  | timerHandler hqueued =>
    rw [hpost]
    simp only [Connection.post, Session.Action.work, Session.Work.of, reduceCtorEq, if_false, if_true]
    omega
  | _ =>
    simp only [Session.Action.work, Session.Work.of, reduceCtorEq, if_false, if_true]
    omega

end Connection

/-! ## One step -/

namespace Session

variable {s s' : Session} {action : Action} {own : List Action}

/-- Every step of a session comes from bytes received, from a command dispatched, or from
outside: what it takes away is there before it, or comes with one of these. -/
structure Pays (s : Session) (work : Work) (s' : Session) : Prop where
  reads : Work.read.of work + s.received.length ≤ s'.received.length
  /-- An iteration dispatches a command, or the handler of a read returns. -/
  iterates : Work.iterate.of work + s'.handlers.length + s.calls.length ≤
    s.handlers.length + s'.calls.length + Work.read.of work + Work.other.of work
  responds : Work.respond.of work + s'.inside.length + s.calls.length ≤ s.inside.length + s'.calls.length
  writes : Work.write.of work + s'.conn.inFlight.length + s.conn.written.length ≤
    s.conn.inFlight.length + s'.conn.written.length
  /-- A task is posted for a reply, behind a write, or to close: by an event, or by a handler that returns. -/
  tasks : Work.task.of work + s'.conn.strand.length + s'.handlers.length + s.replies.length ≤
    s.conn.strand.length + s.handlers.length + s'.replies.length +
      Work.write.of work + Work.read.of work + Work.other.of work

theorem Pays.strand {event : Connection.Event} {conn : Connection} (hout : event.outside = true)
    (hconn : s.conn.step event = some conn) : Pays s (Action.strand event).work { s with conn } := by
  obtain ⟨hwrites, htasks⟩ := Connection.step_pays hout hconn
  have hkind : Work.read.of (Action.strand event).work = 0 ∧ Work.iterate.of (Action.strand event).work = 0 ∧
      Work.respond.of (Action.strand event).work = 0 := by
    cases event <;> exact ⟨rfl, rfl, rfl⟩
  obtain ⟨hread, hiterate, hrespond⟩ := hkind
  have hinside : inside { s with conn } = s.inside := rfl
  refine ⟨?_, ?_, ?_, hwrites, ?_⟩
  · rw [hread]
    exact Nat.le_of_eq (Nat.zero_add _)
  · dsimp only
    omega
  · rw [hinside]
    dsimp only
    omega
  · dsimp only
    omega

theorem Pays.receive {chunk : Bytes} (hs : s.step (.receive chunk) = some s') :
    Pays s (Action.receive chunk).work s' := by
  cases step_spec hs with
  | receive hroom hreading =>
    cases chunk with
    | nil =>
      constructor <;> simp [Action.work, Work.of, inside] <;> omega
    | cons byte chunk =>
      constructor <;> simp [Action.work, Work.of, inside] <;> omega

theorem Pays.iterate (hregular : s.Regular) {i : Nat} (hs : s.step (.iterate i) = some s') :
    Pays s .iterate s' := by
  cases step_spec hs with
  | @stop i n offset hi hstop =>
    obtain ⟨hhandlers, rfl, -⟩ := hregular.alone hi
    obtain ⟨-, hcalls, hreplies⟩ := s.carryOver_frame n offset
    have hreceived := carryOver_received (s := s) n offset
    have hdoRead : s.conn.runTask .read = some s.conn.doRead := rfl
    have hinFlight := Connection.runTask_inFlight hdoRead
    have hstrand := (Connection.doRead_frame (c := s.conn)).1
    constructor <;> simp [Work.of, inside, hhandlers, hcalls, hreplies, hreceived, hstrand]
    omega
  | fail hi =>
    obtain ⟨hhandlers, rfl, -⟩ := hregular.alone hi
    constructor <;> simp [Work.of, inside, hhandlers, Connection.post]
  | dispatch hi hframe =>
    obtain ⟨hhandlers, rfl, -⟩ := hregular.alone hi
    constructor <;> simp [Work.of, inside, hhandlers] <;> omega

theorem Pays.respond (hregular : s.Regular) {i : Nat} (hs : s.step (.respond i) = some s') :
    Pays s .respond s' := by
  cases step_spec hs with
  | reply hi htag =>
    obtain ⟨hhandlers, rfl, -⟩ := hregular.alone hi
    constructor <;> simp [Work.of, inside, send, hhandlers, Connection.post]
    omega
  | setDone hi =>
    obtain ⟨hhandlers, rfl, -⟩ := hregular.alone hi
    constructor <;> simp [Work.of, inside, hhandlers]

/-- **Every step of a session's own pays for itself.** -/
theorem step_pays (hregular : s.Regular) (hown : action.isOwn = true) (hs : s.step action = some s') :
    Pays s action.work s' := by
  cases action with
  | strand event =>
    cases step_spec hs with
    | strand hout hconn => exact .strand hout hconn
  | receive chunk => exact .receive hs
  | iterate i => exact .iterate hregular hs
  | respond i => exact .respond hregular hs
  | store action => cases hown

/-! ## All steps -/

/-- What the steps of a session have been for. -/
structure Accounted (s : Session) (own : List Action) : Prop where
  reads : done own .read ≤ s.received.length
  iterates : done own .iterate + s.handlers.length ≤ s.calls.length + done own .read + done own .other
  responds : done own .respond + s.inside.length ≤ s.calls.length
  writes : done own .write + s.conn.inFlight.length ≤ s.conn.written.length
  tasks : done own .task + s.conn.strand.length + s.handlers.length ≤
    1 + s.replies.length + done own .write + done own .read + done own .other

theorem accounted_start (world : World) : (start world).Accounted [] where
  reads := Nat.le_refl 0
  iterates := Nat.le_refl 0
  responds := Nat.le_refl 0
  writes := Nat.le_refl 0
  tasks := Nat.le_refl 1

theorem Accounted.world (h : s.Accounted own) (world : World) : Accounted { s with world } own :=
  ⟨h.reads, h.iterates, h.responds, h.writes, h.tasks⟩

theorem done_append (own : List Action) (action : Action) (kind : Work) :
    done (own ++ [action]) kind = done own kind + kind.of action.work := by
  simp [done, Work.of, List.count_append, List.count_singleton]

theorem Accounted.step (h : s.Accounted own) (hpays : Pays s action.work s') :
    s'.Accounted (own ++ [action]) := by
  obtain ⟨hreads, hiterates, hresponds, hwrites, htasks⟩ := h
  obtain ⟨hreads', hiterates', hresponds', hwrites', htasks'⟩ := hpays
  constructor <;> simp only [done_append] <;> omega

theorem gets_length_le (calls : List ServerCall) : (calls.flatMap ServerCall.gets).length ≤ calls.length := by
  induction calls with
  | nil => exact Nat.le_refl 0
  | cons command calls ih =>
    rw [List.flatMap_cons, List.length_append, List.length_cons]
    cases command with
    | get cmd =>
      rw [ServerCall.gets, List.length_singleton]
      omega
    | set cmd =>
      rw [ServerCall.gets, List.length_nil]
      omega

/-- A session replies to its GETs only, and writes its replies only. -/
theorem Regular.counts (h : s.Regular) :
    s.conn.written.length ≤ s.replies.length ∧ s.replies.length ≤ s.calls.length ∧
      4 * s.calls.length ≤ s.received.length := by
  obtain ⟨hdispatched, hanswered, hwritten⟩ := h.inOrder
  have hgets := gets_length_le s.calls
  refine ⟨by simpa using hwritten.length_le, ?_, ?_⟩
  · have hreplies := hanswered.length_le
    simp only [List.length_map] at hreplies
    omega
  · have hcalls := hdispatched.length_le
    have hframes := Cutter.parse_length_le (c := frames readServer) (k := msgSizeBytes)
      (fun hfront => (frameFront_frame hfront).1) s.received
    simp only [msgSizeBytes, reference] at hframes hcalls
    omega

/-- The steps that are not for anything from outside. -/
def worked (own : List Action) : Nat := own.countP fun action => action.work ≠ .other

theorem worked_eq (own : List Action) :
    worked own = done own .task + done own .write + done own .read + done own .iterate + done own .respond := by
  induction own with
  | nil => rfl
  | cons action own ih =>
    simp only [worked, done, List.countP_cons, List.map_cons, List.count_cons] at ih ⊢
    rw [ih]
    cases action.work <;> simp <;> omega

theorem Accounted.worked_le (h : s.Accounted own) (hregular : s.Regular) :
    worked own ≤ 5 * s.received.length + 2 * done own .other + 1 := by
  obtain ⟨hwritten, hreplies, hcalls⟩ := hregular.counts
  obtain ⟨hreads, hiterates, hresponds, hwrites, htasks⟩ := h
  rw [worked_eq]
  omega

end Session

namespace Server

theorem ownSteps_append (i : Nat) (as : List Action) (a : Action) :
    ownSteps i (as ++ [a]) = ownSteps i as ++ ownSteps i [a] := List.filterMap_append

/-- After the steps `as` each session is accounted for; one that has not been made has taken none. -/
structure Accounted (srv : Server) (as : List Action) : Prop where
  session {i : Nat} {s : Owned} : srv.sessions[i]? = some s → s.session.Accounted (ownSteps i as)
  unmade {i : Nat} : srv.sessions.length ≤ i → ownSteps i as = []

theorem accounted_start (world : World) : (start world).Accounted [] where
  session h := nomatch h
  unmade _ := rfl

/-- A step that is not one of a session's own. -/
theorem Accounted.other {srv srv' : Server} {as : List Action} {a : Action} (h : srv.Accounted as)
    (hsessions : srv'.sessions = srv.sessions) (ha : ∀ i, ownSteps i [a] = []) : srv'.Accounted (as ++ [a]) where
  session {i s} hi := by
    rw [ownSteps_append, ha, List.append_nil]
    exact h.session (hsessions ▸ hi)
  unmade {i} hi := by
    rw [ownSteps_append, ha, List.append_nil]
    exact h.unmade (hsessions ▸ hi)

theorem Accounted.step {srv srv' : Server} {as : List Action} {a : Action} (h : srv.Accounted as)
    (hregular : ∀ s ∈ srv.sessions, (srv.view s.session).Regular) (hstep : srv.Step a srv') :
    srv'.Accounted (as ++ [a]) := by
  cases hstep with
  | acceptFailed => exact h.other rfl fun i => rfl
  | call hs => exact h.other rfl fun i => rfl
  | saveExpired hwaiting => exact h.other rfl fun i => rfl
  | flush hrunning hflush hs => exact h.other rfl fun i => rfl
  | statExpired hwaiting => exact h.other rfl fun i => rfl
  | dump hrunning hs => exact h.other rfl fun i => rfl
  | accept =>
    have hnone (i : Nat) : ownSteps i (as ++ [.accept]) = ownSteps i as :=
      (ownSteps_append i as .accept).trans (List.append_nil _)
    refine ⟨fun {i s} hi => ?_, fun {i} hi => ?_⟩
    · rw [hnone]
      rw [List.getElem?_append] at hi
      split at hi
      · exact h.session hi
      · next hge =>
        rw [h.unmade (Nat.le_of_not_lt hge), List.mem_singleton.1 (List.mem_of_getElem? hi)]
        exact Session.accounted_start _
    · rw [hnone]
      rw [List.length_append] at hi
      exact h.unmade (Nat.le_of_add_right_le hi)
  | @session j action s s' hj hown hlive hs hdestroyed =>
    have hlt := (List.getElem?_eq_some_iff.1 hj).1
    refine ⟨fun {i d} hi => ?_, fun {i} hi => ?_⟩
    · rw [ownSteps_append]
      by_cases hij : j = i
      · subst hij
        rw [List.getElem?_set_self hlt] at hi
        cases hi
        have hpays := Session.step_pays (s := srv.view s.session) (hregular s (List.mem_of_getElem? hj)) hown hs
        simpa [ownSteps] using ((h.session hj).world srv.world).step hpays
      · rw [List.getElem?_set_ne hij] at hi
        simpa [ownSteps, hij] using h.session hi
    · rw [List.length_set] at hi
      have hij : j ≠ i := by omega
      rw [ownSteps_append, h.unmade hi]
      simp [ownSteps, hij]

/-- **The work of a session is bounded by what it receives.** Whatever the other sessions, the calls on the
store and the timers do, a session takes at most five steps for each byte it has received, one
more, and two for each event from outside. -/
theorem run_worked {world : World} {as : List Action} {srv : Server} (hr : run step (start world) as = some srv)
    {i : Nat} {s : Owned} (hs : srv.sessions[i]? = some s) :
    Session.worked (ownSteps i as) ≤
      5 * s.session.received.length + 2 * Session.done (ownSteps i as) .other + 1 := by
  have hnone : (start world).Accounted [] ∧ run step (start world) [] = some (start world) :=
    ⟨accounted_start world, rfl⟩
  have haccounted : srv.Accounted as ∧ run step (start world) as = some srv := by
    refine trace (J := fun srv bs => srv.Accounted bs ∧ run step (start world) bs = some srv)
      (fun srv a srv' bs h hs => ?_) hr hnone
    obtain ⟨haccounted, hbs⟩ := h
    refine ⟨haccounted.step (fun s hmem => run_regular hbs hmem) (step_spec hs).2, run_append.2 ⟨srv, hbs, ?_⟩⟩
    exact run_singleton hs
  exact ((haccounted.1.session hs).world srv.world).worked_le (run_regular hr (List.mem_of_getElem? hs))

theorem run_worked_twoClients :
    ∃ srv s, run step (start { store := {} }) twoClients = some srv ∧ srv.sessions[0]? = some s ∧
      Session.worked (ownSteps 0 twoClients) ≤
        5 * s.session.received.length + 2 * Session.done (ownSteps 0 twoClients) .other + 1 := by
  obtain ⟨srv, hr, s, hs⟩ : ∃ srv, run step (start { store := {} }) twoClients = some srv ∧
      ∃ s, srv.sessions[0]? = some s := ⟨_, rfl, _, rfl⟩
  exact ⟨srv, s, hr, hs, run_worked hr hs⟩

end Server

end ConfigServer
