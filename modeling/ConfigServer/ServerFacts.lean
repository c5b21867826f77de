/-
A server seen from a session, and from the store. To a session the others, their
calls and the flush are steps of the store, so what the steps of `Session` keep
holds of it on the server (`run_each`); what the store goes through is a run of
`World`. The dump of the statistics is neither: it sets the windows of the
counters to 0, which no step looks at.
-/
import ConfigServer.Server
import ConfigServer.SessionFacts

namespace ConfigServer

open Receiver Runs

/-! ## The counters are only counted -/

def Store.withStats (s : Store) (stats : Counters) : Store := { s with stats }

def World.withStats (w : World) (stats : Counters) : World := { w with store := w.store.withStats stats }

def Session.withStats (s : Session) (stats : Counters) : Session := { s with world := s.world.withStats stats }

theorem World.Coherent.withStats {w : World} (h : w.Coherent) (stats : Counters) :
    (w.withStats stats).Coherent := by
  have hg : Guarantee none w.store (w.store.withStats stats) := .of_root rfl (Nat.le_refl _) fun _ _ _ => rfl
  exact Threads.Holds.env h ⟨h.shared.lt_next, h.shared.inj⟩ fun u hu =>
    hu.stable hg fun e he => absurd he.symm (Option.some_ne_none e)

theorem Store.findOrCreate_withStats (s : Store) (stats : Counters) (m : Map) (key : Bytes) :
    (s.withStats stats).findOrCreate m key =
      ((s.findOrCreate m key).1, (s.findOrCreate m key).2.withStats stats) := by
  unfold findOrCreate
  split <;> rfl

theorem SetCall.step_withStats (s : Store) (stats : Counters) (c : SetCall) :
    ∃ stats', c.step (s.withStats stats) = (c.step s).map fun (s', c') => (s'.withStats stats', c') := by
  obtain ⟨key, given, value, pc⟩ := c
  cases pc with
  | loaded oldv =>
    refine ⟨stats, ?_⟩
    simp only [step, Store.findOrCreate_withStats]
    split
    · next hroom => rw [if_pos (by exact hroom)]; rfl
    · next hroom => rw [if_neg (by exact hroom)]; rfl
  | applied oldv e =>
    refine ⟨stats, ?_⟩
    simp only [step]
    cases hpublish : s.root.publish oldv (oldv.value.insert key e) with
    | none => simp [Store.withStats, hpublish]
    | some root => simp [Store.withStats, hpublish]
  | published => exact ⟨stats.addSetTotal, rfl⟩
  | countedTotal => exact ⟨stats.addSetWindow, rfl⟩
  | _ => exact ⟨stats, rfl⟩

theorem GetCall.step_withStats (s : Store) (stats : Counters) (c : GetCall) :
    ∃ stats', c.step (s.withStats stats) = (c.step s).map fun (s', c') => (s'.withStats stats', c') := by
  obtain ⟨key, pc⟩ := c
  cases pc with
  | loaded snap =>
    refine ⟨stats, ?_⟩
    simp only [step]
    split <;> rfl
  | incremented e => exact ⟨stats.addGetTotal, rfl⟩
  | countedTotal e => exact ⟨stats.addGetWindow, rfl⟩
  | _ => exact ⟨stats, rfl⟩

theorem Call.step_withStats (s : Store) (stats : Counters) (call : Call) :
    ∃ stats', call.step (s.withStats stats) =
      (call.step s).map fun (s', call') => (s'.withStats stats', call') := by
  cases call with
  | set c =>
    refine (SetCall.step_withStats s stats c).imp fun stats' h => ?_
    simp only [step, h, Option.map_map]
    rfl
  | get c =>
    refine (GetCall.step_withStats s stats c).imp fun stats' h => ?_
    simp only [step, h, Option.map_map]
    rfl

theorem World.step_withStats {w w' : World} {a : Action} (stats : Counters) (h : w.step a = some w') :
    ∃ stats', (w.withStats stats).step a = some (w'.withStats stats') := by
  by_cases ha : ∃ i, a = .step i
  · obtain ⟨i, rfl⟩ := ha
    obtain ⟨call, s, call', hi, hcall, rfl⟩ := step_call h
    obtain ⟨stats', hstats⟩ := Call.step_withStats w.store stats call
    refine ⟨stats', ?_⟩
    simp only [step, withStats, hi, hstats, hcall, Option.map_some]
  · refine ⟨stats, ?_⟩
    cases step_spec h with
    | callSet hkey hvalue => simp [step, withStats, hkey, hvalue]
    | callGet => rfl
    | set hi hstep => exact absurd ⟨_, rfl⟩ ha
    | get hi hstep => exact absurd ⟨_, rfl⟩ ha
    | flush hflush =>
      cases hflush with
      | skip hflush hdirty => simp [step, withStats, Store.withStats, hflush, hdirty]
      | exchange hflush hdirty => simp [step, withStats, Store.withStats, hflush, hdirty]
      | «open» hflush => simp [step, withStats, Store.withStats, hflush]
      | load hflush horder => simp [step, withStats, Store.withStats, World.write, hflush, horder]
      | key hflush => simp [step, withStats, Store.withStats, hflush]
      | size hflush => simp [step, withStats, Store.withStats, World.write, hflush]
      | data hflush hjunk => simp [step, withStats, Store.withStats, World.write, hflush, hjunk]
      | finish hflush => simp [step, withStats, Store.withStats, hflush]

theorem World.run_withStats {w w' : World} {as : List Action} (stats : Counters)
    (hr : run World.step w as = some w') :
    ∃ stats', run World.step (w.withStats stats) as = some (w'.withStats stats') := by
  induction as generalizing w stats with
  | nil =>
    cases hr
    exact ⟨stats, rfl⟩
  | cons a as ih =>
    obtain ⟨w₁, h₁, h₂⟩ := run_cons.1 hr
    obtain ⟨stats₁, hs₁⟩ := step_withStats stats h₁
    obtain ⟨stats', hrest⟩ := ih stats₁ h₂
    exact ⟨stats', run_cons.2 ⟨_, hs₁, hrest⟩⟩

/-- A step of the session's own does to the store what the commands it dispatches ask for. -/
theorem Session.step_dispatched {s s' : Session} {action : Session.Action} (hown : action.isOwn = true)
    (hs : s.step action = some s') :
    ∃ dispatched, s.storeActions action = dispatched.map ServerCall.action ∧ s'.calls = s.calls ++ dispatched := by
  have hnone (hcalls : s'.calls = s.calls) (hactions : s.storeActions action = []) :
      ∃ dispatched, s.storeActions action = dispatched.map ServerCall.action ∧ s'.calls = s.calls ++ dispatched :=
    ⟨[], hactions, by rw [hcalls, List.append_nil]⟩
  cases action with
  | strand event =>
    cases step_spec hs with
    | strand hout hconn => exact hnone rfl rfl
  | receive chunk =>
    cases step_spec hs with
    | receive hroom hreading => exact hnone rfl rfl
  | iterate i =>
    obtain ⟨n, offset, hi, ⟨hstop, rfl⟩ | ⟨⟨e, hfail⟩, rfl⟩ | ⟨call, offset', world, hframe, hworld, rfl⟩⟩ :=
      iterate_cases (step_iterate hs)
    · exact hnone (s.carryOver_frame n offset).2.1 (by simp [storeActions, hi, hstop])
    · exact hnone rfl (by simp [storeActions, hi, hfail])
    · exact ⟨[call], by simp [storeActions, hi, hframe], rfl⟩
  | respond i =>
    obtain ⟨n, offset, j, ⟨cmd, call, response, -, -, -, rfl⟩ | ⟨cmd, c, -, -, -, rfl⟩⟩ :=
      respond_cases (step_respond hs)
    · exact hnone rfl rfl
    · exact hnone rfl rfl
  | store action => cases hown

/-! ## The steps of the server -/

namespace Server

inductive Step (srv : Server) : Action → Server → Prop
  | accept : Step srv .accept { srv with sessions := srv.sessions ++ [.start srv.world] }
  | acceptFailed : Step srv .acceptFailed srv
  | session {i : Nat} {action : Session.Action} {s s' : Owned} (hi : srv.sessions[i]? = some s)
    (hown : action.isOwn = true) (hlive : s.destroyed = false)
    (hs : (srv.view s.session).step action = some s'.session) (hdestroyed : s'.destroyed = !s'.session.held) :
    Step srv (.session i action)
      { srv.setWorld s'.session.world with sessions := srv.sessions.set i s' }
  | call {i : Nat} {world : World} (hs : srv.world.step (.step i) = some world) :
    Step srv (.call i) (srv.setWorld world)
  | saveExpired (hwaiting : srv.saveTimer = .waiting) :
    Step srv .saveExpired { srv with saveTimer := .running }
  | flush {action : ConfigServer.Action} {world : World} (hrunning : srv.saveTimer = .running)
    (hflush : action.isFlush = true) (hs : srv.world.step action = some world) :
    Step srv (.flush action)
      { srv.setWorld world with saveTimer := if world.flush = .idle then .waiting else .running }
  | statExpired (hwaiting : srv.statTimer = .waiting) :
    Step srv .statExpired { srv with statTimer := .running }
  | dump {reporting : Reporting} (hrunning : srv.statTimer = .running)
    (hs : srv.reporting.step .dump = some reporting) :
    Step srv .dump { srv with reporting, statTimer := if reporting.dump = .idle then .waiting else .running }

/-- There is no fault before a step. -/
def NoFault (srv : Server) : Prop := ∀ s ∈ srv.sessions, s.session.conn.fault = none

theorem step_spec {srv srv' : Server} {a : Action} (h : srv.step a = some srv') :
    srv.NoFault ∧ srv.Step a srv' := by
  unfold step at h
  split at h
  · cases h
  · next hfault =>
    have hnofault : srv.NoFault := by
      intro s hs
      simp only [List.any_eq_true, not_exists, not_and, Bool.not_eq_true] at hfault
      simpa using hfault s hs
    refine ⟨hnofault, ?_⟩
    cases a with
    | accept =>
      cases h
      exact .accept
    | acceptFailed =>
      cases h
      exact .acceptFailed
    | session i action =>
      simp only [stepSession] at h
      split at h
      · cases h
      · next s hi =>
        split at h
        · next hown =>
          obtain ⟨s', hs', rfl⟩ := Option.map_eq_some_iff.1 h
          obtain ⟨hlive, hsession, hdestroyed⟩ := Owned.step_eq_some hs'
          exact .session hi hown hlive hsession hdestroyed
        · cases h
    | call i =>
      obtain ⟨world, hs, rfl⟩ := Option.map_eq_some_iff.1 h
      exact .call hs
    | saveExpired =>
      simp only at h
      split at h
      · next hwaiting =>
        cases h
        exact .saveExpired hwaiting
      · cases h
    | flush action =>
      simp only [stepFlush] at h
      split at h
      · next hready =>
        obtain ⟨world, hs, rfl⟩ := Option.map_eq_some_iff.1 h
        exact .flush hready.1 hready.2 hs
      · cases h
    | statExpired =>
      simp only at h
      split at h
      · next hwaiting =>
        cases h
        exact .statExpired hwaiting
      · cases h
    | dump =>
      simp only [stepDump] at h
      split at h
      · next hrunning =>
        obtain ⟨reporting, hs, rfl⟩ := Option.map_eq_some_iff.1 h
        exact .dump hrunning hs
      · cases h

/-- The dump changes the counters only. -/
theorem dump_world {srv : Server} {reporting : Reporting} (hs : srv.reporting.step .dump = some reporting) :
    ∃ stats, reporting.world = srv.world.withStats stats := by
  cases hs
  exact ⟨_, rfl⟩

/-! ## A session on the server -/

/-- What the step does to the store, the counters apart. -/
def worldActions (srv : Server) : Action → List ConfigServer.Action
  | .session i action => (srv.sessions[i]?.map fun s => (srv.view s.session).storeActions action).getD []
  | .call i => [.step i]
  | .flush action => [action]
  | _ => []

/-- What every step of a session keeps, and does not depend on the counters. -/
structure Kept (I : Session → Prop) : Prop where
  step {s s' : Session} {a : Session.Action} : I s → s.step a = some s' → I s'
  stats {s : Session} (stats : Counters) : I s → I (s.withStats stats)

/-- Others work on the store. -/
theorem Kept.store {I : Session → Prop} (hkept : Kept I) {s : Session} (h : I s) (hfault : s.conn.fault = none)
    {as : List ConfigServer.Action} {world : World} (hr : run World.step s.world as = some world) :
    I { s with world } := by
  induction as generalizing s with
  | nil =>
    cases hr
    exact h
  | cons a as ih =>
    obtain ⟨w, hw, hrest⟩ := run_cons.1 hr
    have hs : s.step (.store a) = some { s with world := w } := by simp [Session.step, hfault, hw]
    exact ih (s := { s with world := w }) (hkept.step h hs) hfault hrest

/-- A step is one of a session's own, and for the other sessions it is one on the store, if any. -/
theorem Step.each {I : Session → Prop} (hkept : Kept I) {srv srv' : Server} {a : Action}
    (hstep : srv.Step a srv') (hnofault : srv.NoFault) (hstart : I (Session.start srv.world))
    (h : ∀ s ∈ srv.sessions, I (srv.view s.session)) : ∀ s ∈ srv'.sessions, I (srv'.view s.session) := by
  have hother {s : Owned} {world : World} {as : List ConfigServer.Action} (hmem : s ∈ srv.sessions)
      (hr : run World.step srv.world as = some world) : I { s.session with world } :=
    hkept.store (s := srv.view s.session) (h s hmem) (hnofault s hmem) hr
  intro s hmem
  cases hstep with
  | accept =>
    rcases List.mem_append.1 hmem with hmem | hmem
    · exact h s hmem
    · cases List.mem_singleton.1 hmem
      exact hstart
  | acceptFailed => exact h s hmem
  | session hi hown hlive hs hdestroyed =>
    rcases List.mem_or_eq_of_mem_set hmem with hmem | rfl
    · exact hother hmem (Session.step_world hs)
    · exact hkept.step (h _ (List.mem_of_getElem? hi)) hs
  | call hs => exact hother hmem (run_singleton hs)
  | saveExpired hwaiting => exact h s hmem
  | flush hrunning hflush hs => exact hother hmem (run_singleton hs)
  | statExpired hwaiting => exact h s hmem
  | dump hrunning hs =>
    obtain ⟨stats, hworld⟩ := dump_world hs
    have hview : I { s.session with world := srv.world.withStats stats } := hkept.stats stats (h s hmem)
    simpa [view, world, hworld] using hview

/-- **What the steps of a session keep holds of it on a server**, whatever the other sessions and the timers do. -/
theorem run_each {I : Session → Prop} (hkept : Kept I) {world : World} {as : List Action} {srv : Server}
    (hstart : ∀ bs srv, run step (start world) bs = some srv → I (Session.start srv.world))
    (hr : run step (start world) as = some srv) {s : Owned} (hs : s ∈ srv.sessions) :
    I (srv.view s.session) := by
  have hnone : run step (start world) [] = some (start world) ∧
      ∀ s ∈ (start world).sessions, I ((start world).view s.session) :=
    ⟨rfl, fun s hmem => absurd hmem List.not_mem_nil⟩
  have hreached : run step (start world) as = some srv ∧ ∀ s ∈ srv.sessions, I (srv.view s.session) := by
    refine trace (J := fun srv bs => run step (start world) bs = some srv ∧
      ∀ s ∈ srv.sessions, I (srv.view s.session)) (fun srv a srv' bs h hs => ?_) hr hnone
    obtain ⟨hnofault, hstep⟩ := step_spec hs
    exact ⟨run_append.2 ⟨srv, h.1, run_singleton hs⟩, hstep.each hkept hnofault (hstart _ _ h.1) h.2⟩
  exact hreached.2 s hs

/-! ## The store on the server -/

/-- A step does to the store what its actions say, up to the counters. -/
theorem Step.world {srv srv' : Server} {a : Action} (h : srv.Step a srv') :
    ∃ stats, run World.step srv.world (srv.worldActions a) = some (srv'.world.withStats stats) := by
  cases h with
  | accept => exact ⟨srv.world.store.stats, rfl⟩
  | acceptFailed => exact ⟨srv.world.store.stats, rfl⟩
  | @session i action s s' hi hown hlive hs hdestroyed =>
    refine ⟨s'.session.world.store.stats, ?_⟩
    simp only [worldActions, hi, Option.map_some, Option.getD_some]
    exact Session.step_world hs
  | @call i world hs => exact ⟨world.store.stats, run_singleton hs⟩
  | saveExpired hwaiting => exact ⟨srv.world.store.stats, rfl⟩
  | @flush action world hrunning hflush hs => exact ⟨world.store.stats, run_singleton hs⟩
  | statExpired hwaiting => exact ⟨srv.world.store.stats, rfl⟩
  | dump hrunning hs =>
    obtain ⟨stats, hworld⟩ := dump_world hs
    refine ⟨srv.world.store.stats, ?_⟩
    simp only [Server.world, hworld]
    rfl

/-- A SET that is called is one that a session has dispatched. -/
theorem Step.dispatched {srv srv' : Server} {a : Action} (h : srv.Step a srv') {key value : Bytes}
    (hset : .callSet key value ∈ srv.worldActions a) :
    ∃ s ∈ srv'.sessions, .set ⟨key, value⟩ ∈ s.session.calls := by
  cases h with
  | @session i action s s' hi hown hlive hs hdestroyed =>
    simp only [worldActions, hi, Option.map_some, Option.getD_some] at hset
    obtain ⟨dispatched, hactions, hcalls⟩ := Session.step_dispatched hown hs
    rw [hactions] at hset
    obtain ⟨command, hmem, haction⟩ := List.mem_map.1 hset
    obtain rfl : command = .set ⟨key, value⟩ := by
      cases command with
      | get cmd => cases haction
      | set cmd =>
        cases haction
        rfl
    refine ⟨s', List.mem_of_getElem? (List.getElem?_set_self (List.getElem?_eq_some_iff.1 hi).1), ?_⟩
    rw [hcalls]
    exact List.mem_append_right _ hmem
  | call hs => cases List.mem_singleton.1 hset
  | flush hrunning hflush hs =>
    cases List.mem_singleton.1 hset
    cases hflush
  | accept => exact absurd hset List.not_mem_nil
  | acceptFailed => exact absurd hset List.not_mem_nil
  | saveExpired hwaiting => exact absurd hset List.not_mem_nil
  | statExpired hwaiting => exact absurd hset List.not_mem_nil
  | dump hrunning hs => exact absurd hset List.not_mem_nil

/-- A session has dispatched the command. -/
def Dispatched (srv : Server) (command : ServerCall) : Prop := ∃ s ∈ srv.sessions, command ∈ s.session.calls

/-- What has been dispatched stays so. -/
theorem Step.dispatched_mono {srv srv' : Server} {a : Action} (h : srv.Step a srv') {command : ServerCall}
    (hcommand : srv.Dispatched command) : srv'.Dispatched command := by
  obtain ⟨s, hmem, hcommand⟩ := hcommand
  cases h with
  | accept => exact ⟨s, List.mem_append_left _ hmem, hcommand⟩
  | @session i action s₀ s' hi hown hlive hs hdestroyed =>
    obtain ⟨j, hj⟩ := List.mem_iff_getElem?.1 hmem
    by_cases hij : i = j
    · subst hij
      cases hi.symm.trans hj
      obtain ⟨dispatched, -, hcalls⟩ := Session.step_dispatched hown hs
      refine ⟨s', List.mem_of_getElem? (List.getElem?_set_self (List.getElem?_eq_some_iff.1 hi).1), ?_⟩
      rw [hcalls]
      exact List.mem_append_left _ hcommand
    · exact ⟨s, List.mem_of_getElem? ((List.getElem?_set_ne hij).trans hj), hcommand⟩
  | acceptFailed => exact ⟨s, hmem, hcommand⟩
  | call hs => exact ⟨s, hmem, hcommand⟩
  | saveExpired hwaiting => exact ⟨s, hmem, hcommand⟩
  | flush hrunning hflush hs => exact ⟨s, hmem, hcommand⟩
  | statExpired hwaiting => exact ⟨s, hmem, hcommand⟩
  | dump hrunning hs => exact ⟨s, hmem, hcommand⟩

/-- **What the store of a server goes through is a run of `World`**, up to the
counters, and its SETs are those the sessions have dispatched. -/
theorem run_world {world : World} {as : List Action} {srv : Server} (hr : run step (start world) as = some srv) :
    (∃ stats, run World.step world (outputs step worldActions (start world) as) =
      some (srv.world.withStats stats)) ∧
      ∀ key value, .callSet key value ∈ outputs step worldActions (start world) as →
        srv.Dispatched (.set ⟨key, value⟩) := by
  have halong : Along step (fun _ _ => True) (start world) as := along_all (fun _ _ => trivial) _ _
  refine halong.history (J := fun srv actions =>
    (∃ stats, run World.step world actions = some (srv.world.withStats stats)) ∧
      ∀ key value, .callSet key value ∈ actions → srv.Dispatched (.set ⟨key, value⟩))
    (fun srv a srv' sofar h _ hs => ?_) hr
    ⟨⟨world.store.stats, rfl⟩, fun _ _ hmem => absurd hmem List.not_mem_nil⟩
  obtain ⟨⟨stats, hsofar⟩, hsets⟩ := h
  have hstep := (step_spec hs).2
  obtain ⟨stats', hworld⟩ := hstep.world
  obtain ⟨stats'', hworld'⟩ := World.run_withStats stats hworld
  refine ⟨⟨stats'', run_append.2 ⟨_, hsofar, hworld'⟩⟩, fun key value hmem => ?_⟩
  rcases List.mem_append.1 hmem with hmem | hmem
  · exact hstep.dispatched_mono (hsets key value hmem)
  · exact hstep.dispatched hmem

/-! ## The order of the replies -/

theorem regular_kept : Kept Session.Regular where
  step h hs := h.step hs
  stats _ h := h.world _

theorem run_regular {world : World} {as : List Action} {srv : Server} (hr : run step (start world) as = some srv)
    {s : Owned} (hs : s ∈ srv.sessions) : (srv.view s.session).Regular :=
  run_each regular_kept (fun _ srv _ => Session.regular_start srv.world) hr hs

/-- **Every client is answered in order.** Whatever the other clients, their
sessions, the flush and the dump do, and whether its own connection is closed or
not, what a session dispatches are the frames of its own stream, in order, and
what it writes are the replies to its own GETs, in order. -/
theorem run_answeredInOrder {world : World} {as : List Action} {srv : Server}
    (hr : run step (start world) as = some srv) {s : Owned} (hs : s ∈ srv.sessions) : s.session.InOrder := by
  have h := (run_regular hr hs).inOrder
  exact ⟨h.dispatched, h.answered, h.written⟩

/-- Two clients: a GET and a SET of the same key, dispatched at the same time. The
first one is closed by its timer when it has been answered. -/
def twoClients : List Action :=
  [.accept, .accept, .session 0 (.strand .run), .session 1 (.strand .run),
    .session 0 (.receive [12, 0, 0, 0, 0, 1, 0, 0, 0, 97, 7, 0]),
    .session 1 (.receive [15, 0, 0, 0, 1, 1, 0, 0, 0, 97, 1, 0, 0, 0, 1]), .session 0 (.iterate 0),
    .session 1 (.iterate 0), .call 1, .call 0, .call 0, .session 0 (.respond 0), .saveExpired, .statExpired,
    .call 1, .call 1, .session 0 (.strand .run), .dump, .call 1, .session 0 (.strand .timerExpired),
    .session 0 (.strand .timerHandler), .session 0 (.strand .run)]

theorem run_answeredInOrder_twoClients :
    ∃ srv s, run step (start { store := {} }) twoClients = some srv ∧ s ∈ srv.sessions ∧
      s.session.conn.isOpen = false ∧ s.session.conn.written.length = 1 ∧ s.session.InOrder := by
  have hclosed : (run step (start { store := {} }) twoClients).bind (fun srv =>
      srv.sessions[0]?.map fun s => (s.session.conn.isOpen, s.session.conn.written.length)) =
        some (false, 1) := by
    decide
  obtain ⟨srv, hr, hfirst⟩ := Option.bind_eq_some_iff.1 hclosed
  obtain ⟨s, hi, heq⟩ := Option.map_eq_some_iff.1 hfirst
  obtain ⟨hopen, hone⟩ := Prod.mk.inj heq
  have hs := List.mem_of_getElem? hi
  exact ⟨srv, s, hr, hs, hopen, hone, run_answeredInOrder hr hs⟩

end Server

end ConfigServer
