/-
Clients and the server, each client connected with one session by two streams
of bytes. What a socket reads is what its peer has written, in order, cut
anywhere and late by any time. Other programs may connect, and send anything.
-/
import ConfigServer.Client
import ConfigServer.ServerFacts

namespace ConfigServer

open Framing LittleEndian Receiver Runs

/-! ## The system -/

structure System where
  server : Server
  /-- Who is connected with session `i`, and waits for it to be made; `none` is some other program. -/
  clients : List (Option Client) := []

namespace System

inductive Action
  /-- A client connects, and posts these commands. -/
  | connect (commands : List ServerCall)
  | connectOther
  | client (i : Nat) (action : Client.Action)
  | server (action : Server.Action)

def start (world : World) : System := { server := .start world }

/-- What client `i` reads has been written by session `i`. -/
def clientReads (sys : System) (i : Nat) (c : Client) : Client.Action → Bool
  | .receive chunk => sys.server.sessions[i]?.any fun s => c.received ++ chunk <+: s.session.conn.written.flatten
  | .strand _ => true

/-- A session is made for someone who has connected, and reads what that client has written. -/
def serverReads (sys : System) : Server.Action → Bool
  | .accept => sys.server.sessions.length < sys.clients.length
  | .session i (.receive chunk) => sys.server.sessions[i]?.all fun s =>
    sys.clients[i]?.join.all fun c => s.session.received ++ chunk <+: c.conn.written.flatten
  | _ => true

def step (sys : System) : Action → Option System
  | .connect commands => some { sys with clients := sys.clients ++ [some (.start commands)] }
  | .connectOther => some { sys with clients := sys.clients ++ [none] }
  | .client i action =>
    match sys.clients[i]? with
    | some (some c) =>
      if sys.clientReads i c action then
        (c.step action).map fun c => { sys with clients := sys.clients.set i (some c) }
      else
        none
    | _ => none
  | .server action =>
    if sys.serverReads action then (sys.server.step action).map fun server => { sys with server } else none

end System

/-! ## What has been written stays so -/

namespace Connection

theorem doWrite_written (c : Connection) : c.written <+: c.doWrite.written := by
  unfold doWrite
  split
  · exact List.prefix_rfl
  · exact List.prefix_append _ _

theorem doRead_written (c : Connection) : c.doRead.written = c.written := by
  unfold doRead
  split <;> rfl

theorem runTask_written {c c' : Connection} {task : Task} (hs : c.runTask task = some c') :
    c.written <+: c'.written := by
  cases task with
  | read =>
    cases hs
    rw [doRead_written]
  | send cmd =>
    simp only [runTask, runSend] at hs
    split at hs
    · cases hs
      exact List.prefix_rfl
    · split at hs
      · cases hs
      · simp only [Option.some.injEq] at hs
        subst hs
        split
        · exact doWrite_written { c.resetIdleTimer with sendQueue := _ }
        · exact List.prefix_rfl
  | sendNext =>
    cases hs
    unfold sendNext
    split
    · exact List.prefix_rfl
    · next data rest hqueue =>
      dsimp only
      split
      · exact doWrite_written { c with sendQueue := rest }
      · exact List.prefix_rfl
  | close cause =>
    cases hs
    unfold close
    split <;> exact List.prefix_rfl

theorem step_written {c c' : Connection} {event : Event} (hs : c.step event = some c') :
    c.written <+: c'.written := by
  cases (step_spec hs).2 with
  | @run task tasks c' hstrand htask => exact runTask_written (c := { c with strand := tasks }) htask
  | readDone hreading => rw [doRead_written]
  | _ => exact List.prefix_rfl

end Connection

theorem Session.step_written {s s' : Session} {action : Session.Action} (hs : s.step action = some s') :
    s.conn.written <+: s'.conn.written := by
  cases step_spec hs with
  | strand hout hconn => exact Connection.step_written hconn
  | stop hi hstop => rw [Connection.doRead_written]
  | _ => exact List.prefix_rfl

/-- What a session has received only grows by what it reads. -/
theorem Session.step_received {s s' : Session} {action : Session.Action} (hs : s.step action = some s') :
    s'.received = s.received ∨ ∃ chunk, action = .receive chunk ∧ s'.received = s.received ++ chunk := by
  cases step_spec hs with
  | receive hroom hreading => exact .inr ⟨_, rfl, rfl⟩
  | stop hi hstop => exact .inl (carryOver_received _ _)
  | _ => exact .inl rfl

/-! ## A client -/

namespace Client

/-- What holds of a client between its steps. -/
structure Regular (c : Client) : Prop where
  emits : c.conn.Emits (c.commands.map ServerCall.message)
  /-- It has processed the frames of what it has received. -/
  tracks : Tracks c.receiver (reference readClient c.received)
  single : c.conn.reads ≤ 1
  reading : 0 < c.conn.reads → c.receiver.status = .reading

theorem posts_emits {conn : Connection} {messages : List Message} (h : conn.Emits messages)
    (commands : List ServerCall) :
    (commands.foldl (fun conn command => conn.post (.send command.message)) conn).Emits
      (messages ++ commands.map ServerCall.message) := by
  induction commands generalizing conn messages with
  | nil => simpa using h
  | cons command commands ih => simpa using ih (h.post command.message)

theorem posts_reads (conn : Connection) (commands : List ServerCall) :
    (commands.foldl (fun conn command => conn.post (.send command.message)) conn).reads = conn.reads := by
  induction commands generalizing conn with
  | nil => rfl
  | cons command commands ih => exact (ih _).trans (Connection.reads_post (by simp))

theorem regular_start (commands : List ServerCall) : (start commands).Regular where
  emits := posts_emits (Session.regular_start { store := {} }).emits commands
  tracks := reference_nil
  single := Nat.le_of_eq (posts_reads _ commands)
  reading _ := rfl

theorem receive_cases {c c' : Client} {chunk : Bytes} (h : c.receive chunk = some c') :
    chunk.length ≤ c.receiver.free ∧ 0 < c.conn.reading ∧
      ((c.receiver.doReadHandler readClient chunk).status = .reading ∧
          c' = { c with
            conn := { c.conn with reading := c.conn.reading - 1 }.doRead
            receiver := c.receiver.doReadHandler readClient chunk
            received := c.received ++ chunk } ∨
        c' = { c with
          conn := { c.conn with reading := c.conn.reading - 1 }.post (.close .read)
          receiver := c.receiver.doReadHandler readClient chunk
          received := c.received ++ chunk }) := by
  unfold receive at h
  split at h
  · next hroom =>
    obtain ⟨conn, hconn, hrest⟩ := Option.bind_eq_some_iff.1 h
    obtain ⟨hreading, rfl⟩ := Connection.completeRead_eq_some hconn
    refine ⟨hroom, hreading, ?_⟩
    dsimp only at hrest
    split at hrest
    · next hstatus => exact .inl ⟨hstatus, (Option.some.inj hrest).symm⟩
    · exact .inr (Option.some.inj hrest).symm
    · cases hrest
  · cases h

/-- The read that completes was the only one. -/
theorem Regular.lastRead {c : Client} (h : c.Regular) (hreading : 0 < c.conn.reading) :
    ({ c.conn with reading := c.conn.reading - 1 } : Connection).reads = 0 := by
  have hsingle := h.single
  simp only [Connection.reads] at hsingle ⊢
  omega

theorem Regular.step {c c' : Client} {action : Action} (h : c.Regular) (hs : c.step action = some c') :
    c'.Regular := by
  unfold Client.step at hs
  split at hs
  · cases hs
  · cases action with
    | strand event =>
      dsimp only at hs
      split at hs
      · next hout =>
        obtain ⟨conn, hconn, rfl⟩ := Option.map_eq_some_iff.1 hs
        have hreads := Connection.step_reads hout hconn
        exact ⟨h.emits.step hout hconn, h.tracks, Nat.le_trans hreads h.single,
          fun hpos => h.reading (Nat.lt_of_lt_of_le hpos hreads)⟩
      · cases hs
    | receive chunk =>
      obtain ⟨hroom, hreading, hnext⟩ := receive_cases hs
      have hlast := h.lastRead hreading
      have hstatus : c.receiver.status = .reading :=
        h.reading (Nat.lt_of_lt_of_le hreading (Nat.le_add_right _ _))
      have hhandler : c.receiver.receive readClient chunk = c.receiver.doReadHandler readClient chunk := by
        simp only [Receiver.receive, hstatus]
      have htracks : Tracks (c.receiver.doReadHandler readClient chunk)
          (reference readClient (c.received ++ chunk)) := by
        rw [reference, Cutter.parse_append, ← hhandler]
        exact receive_tracks h.tracks fun _ => hroom
      have hemits : ({ c.conn with reading := c.conn.reading - 1 } : Connection).Emits
          (c.commands.map ServerCall.message) :=
        h.emits.of_eq (fun sent ho => ho.of_eq ho.inv.readOver rfl rfl rfl) rfl rfl (fun _ => rfl) rfl
      generalize c.receiver.doReadHandler readClient chunk = receiver at hnext htracks
      rcases hnext with ⟨hreads, rfl⟩ | rfl
      · refine ⟨hemits.doRead, htracks, ?_, fun _ => hreads⟩
        dsimp only
        rw [Connection.doRead_frame.2, hlast]
        split <;> omega
      · have hnone : (({ c.conn with reading := c.conn.reading - 1 } : Connection).post
          (.close .read)).reads = 0 :=
          (Connection.reads_post (by simp)).trans hlast
        refine ⟨?_, htracks, hnone.symm ▸ Nat.zero_le 1, fun hpos => ?_⟩
        · exact hemits.of_eq (fun sent ho => ho.post (by simp)) (Connection.filterMap_post_of_none rfl) rfl
            (fun _ => rfl) rfl
        · exact absurd hnone (Nat.ne_of_gt hpos)

theorem Regular.calls {c : Client} (h : c.Regular) :
    c.receiver.calls = (reference readClient c.received).items := by
  have houtcome := h.tracks.outcome
  unfold Receiver.outcome at houtcome
  split at houtcome
  · exact congrArg Outcome.items (Option.some.inj houtcome)
  · exact congrArg Outcome.items (Option.some.inj houtcome)
  · cases houtcome

theorem step_frame {c c' : Client} {action : Action} (hs : c.step action = some c') :
    c'.commands = c.commands ∧ c.conn.written <+: c'.conn.written ∧
      (c'.received = c.received ∨ ∃ chunk, action = .receive chunk ∧ c'.received = c.received ++ chunk) := by
  unfold Client.step at hs
  split at hs
  · cases hs
  · cases action with
    | strand event =>
      dsimp only at hs
      split at hs
      · obtain ⟨conn, hconn, rfl⟩ := Option.map_eq_some_iff.1 hs
        exact ⟨rfl, Connection.step_written hconn, .inl rfl⟩
      · cases hs
    | receive chunk =>
      obtain ⟨-, -, ⟨-, rfl⟩ | rfl⟩ := receive_cases hs
      · refine ⟨rfl, ?_, .inr ⟨chunk, rfl, rfl⟩⟩
        rw [Connection.doRead_written]
      · exact ⟨rfl, List.prefix_rfl, .inr ⟨chunk, rfl, rfl⟩⟩

end Client

/-! ## The streams -/

/-- A step of the server leaves a session as it is, or is one of its own. -/
theorem Server.Step.sessions {srv srv' : Server} {a : Server.Action} (h : srv.Step a srv') {i : Nat} {s' : Owned}
    (hi : srv'.sessions[i]? = some s') :
    (∃ s, srv.sessions[i]? = some s ∧ (s' = s ∨ ∃ action, a = .session i action ∧
        (srv.view s.session).step action = some s'.session)) ∨
      i = srv.sessions.length ∧ a = .accept ∧ s' = .start srv.world := by
  cases h with
  | accept =>
    rw [List.getElem?_append] at hi
    split at hi
    · exact .inl ⟨s', hi, .inl rfl⟩
    · next hge =>
      have hlt := (List.getElem?_eq_some_iff.1 hi).1
      simp only [List.length_singleton] at hlt
      exact .inr ⟨by omega, rfl, List.mem_singleton.1 (List.mem_of_getElem? hi)⟩
  | @session j action s s'' hj hown hlive hs hdestroyed =>
    by_cases hij : j = i
    · subst hij
      rw [List.getElem?_set_self (List.getElem?_eq_some_iff.1 hj).1] at hi
      cases hi
      exact .inl ⟨s, hj, .inr ⟨action, rfl, hs⟩⟩
    · rw [List.getElem?_set_ne hij] at hi
      exact .inl ⟨s', hi, .inl rfl⟩
  | acceptFailed => exact .inl ⟨s', hi, .inl rfl⟩
  | call hs => exact .inl ⟨s', hi, .inl rfl⟩
  | saveExpired hwaiting => exact .inl ⟨s', hi, .inl rfl⟩
  | flush hrunning hflush hs => exact .inl ⟨s', hi, .inl rfl⟩
  | statExpired hwaiting => exact .inl ⟨s', hi, .inl rfl⟩
  | dump hrunning hs => exact .inl ⟨s', hi, .inl rfl⟩

namespace System

/-- What a client has received, its session has written, and the other way round. -/
structure Streams (c : Client) (s : Session) : Prop where
  toServer : s.received <+: c.conn.written.flatten
  toClient : c.received <+: s.conn.written.flatten

theorem flatten_mono {α : Type} {l l' : List (List α)} (h : l <+: l') : l.flatten <+: l'.flatten := by
  obtain ⟨t, rfl⟩ := h
  rw [List.flatten_append]
  exact List.prefix_append _ _

/-- The invariant of the system. -/
structure Connected (sys : System) : Prop where
  regular {c : Client} : some c ∈ sys.clients → c.Regular
  /-- A session is made for someone who has connected. -/
  paired : sys.server.sessions.length ≤ sys.clients.length
  streams {i : Nat} {c : Client} {s : Owned} : sys.clients[i]? = some (some c) →
    sys.server.sessions[i]? = some s → Streams c s.session
  /-- A client whose session has not been made has received nothing. -/
  waiting {i : Nat} {c : Client} : sys.clients[i]? = some (some c) →
    sys.server.sessions.length ≤ i → c.received = []

theorem connected_start (world : World) : (start world).Connected where
  regular h := absurd h List.not_mem_nil
  paired := Nat.le_refl 0
  streams h := nomatch h
  waiting h := nomatch h

theorem Connected.connect {sys : System} (h : sys.Connected) {client? : Option Client}
    (hclient : ∀ c ∈ client?, c.Regular ∧ c.received = []) :
    Connected { sys with clients := sys.clients ++ [client?] } where
  regular {c} hmem := by
    rcases List.mem_append.1 hmem with hmem | hmem
    · exact h.regular hmem
    · exact (hclient c (List.mem_singleton.1 hmem).symm).1
  paired := by
    rw [List.length_append]
    exact Nat.le_add_right_of_le h.paired
  streams {i c s} hi hs := by
    have hlt := (List.getElem?_eq_some_iff.1 hs).1
    rw [List.getElem?_append_left (Nat.lt_of_lt_of_le hlt h.paired)] at hi
    exact h.streams hi hs
  waiting {i c} hi hle := by
    rw [List.getElem?_append] at hi
    split at hi
    · exact h.waiting hi hle
    · exact (hclient c (List.mem_singleton.1 (List.mem_of_getElem? hi)).symm).2

theorem Connected.client {sys : System} (h : sys.Connected) {i : Nat} {c c' : Client} {action : Client.Action}
    (hi : sys.clients[i]? = some (some c)) (hreads : sys.clientReads i c action = true)
    (hs : c.step action = some c') : Connected { sys with clients := sys.clients.set i (some c') } := by
  have hlt := (List.getElem?_eq_some_iff.1 hi).1
  obtain ⟨-, hwritten, hreceived⟩ := Client.step_frame hs
  -- What it reads, its session has written.
  have hstream {s : Owned} (hsession : sys.server.sessions[i]? = some s) (hsofar : Streams c s.session) :
      Streams c' s.session := by
    refine ⟨hsofar.toServer.trans (flatten_mono hwritten), ?_⟩
    rcases hreceived with hsame | ⟨chunk, rfl, hmore⟩
    · exact hsame ▸ hsofar.toClient
    · rw [hmore]
      simpa [clientReads, hsession] using hreads
  refine ⟨fun {d} hmem => ?_, by simpa using h.paired, fun {j d s} hj hsession => ?_, fun {j d} hj hle => ?_⟩
  · rcases List.mem_or_eq_of_mem_set hmem with hmem | heq
    · exact h.regular hmem
    · cases heq
      exact (h.regular (List.mem_of_getElem? hi)).step hs
  · by_cases hij : i = j
    · subst hij
      rw [List.getElem?_set_self hlt] at hj
      cases hj
      exact hstream hsession (h.streams hi hsession)
    · rw [List.getElem?_set_ne hij] at hj
      exact h.streams hj hsession
  · by_cases hij : i = j
    · subst hij
      rw [List.getElem?_set_self hlt] at hj
      cases hj
      rcases hreceived with hsame | ⟨chunk, rfl, hmore⟩
      · exact hsame.trans (h.waiting hi hle)
      · rw [clientReads, List.getElem?_eq_none hle] at hreads
        cases hreads
    · rw [List.getElem?_set_ne hij] at hj
      exact h.waiting hj hle

theorem Connected.server {sys : System} (h : sys.Connected) {srv : Server} {action : Server.Action}
    (hreads : sys.serverReads action = true) (hs : sys.server.step action = some srv) :
    Connected { sys with server := srv } := by
  have hstep := (Server.step_spec hs).2
  have hlength : srv.sessions.length ≤ sys.clients.length ∧ sys.server.sessions.length ≤ srv.sessions.length := by
    have hpaired := h.paired
    cases hstep with
    | accept =>
      simp only [serverReads, decide_eq_true_eq] at hreads
      simp only [List.length_append, List.length_singleton]
      omega
    | session hi hown hlive hs hdestroyed => simpa using hpaired
    | acceptFailed => exact ⟨hpaired, Nat.le_refl _⟩
    | call hs => exact ⟨hpaired, Nat.le_refl _⟩
    | saveExpired hwaiting => exact ⟨hpaired, Nat.le_refl _⟩
    | flush hrunning hflush hs => exact ⟨hpaired, Nat.le_refl _⟩
    | statExpired hwaiting => exact ⟨hpaired, Nat.le_refl _⟩
    | dump hrunning hs => exact ⟨hpaired, Nat.le_refl _⟩
  refine ⟨h.regular, hlength.1, fun {i c s'} hi hsession => ?_, fun hi hle => h.waiting hi (hlength.2.trans hle)⟩
  rcases hstep.sessions hsession with ⟨s, hbefore, rfl | ⟨action, rfl, hstep'⟩⟩ | ⟨rfl, -, rfl⟩
  · exact h.streams hi hbefore
  · have hsofar := h.streams hi hbefore
    have hwritten := Session.step_written hstep'
    refine ⟨?_, hsofar.toClient.trans (flatten_mono hwritten)⟩
    rcases Session.step_received hstep' with hsame | ⟨chunk, rfl, hmore⟩
    · rw [hsame]
      exact hsofar.toServer
    · rw [hmore]
      simpa [serverReads, Server.view, hbefore, hi] using hreads
  · refine ⟨List.nil_prefix, ?_⟩
    rw [h.waiting hi (Nat.le_refl _)]
    exact List.nil_prefix

theorem Connected.step {sys sys' : System} {action : Action} (h : sys.Connected)
    (hs : sys.step action = some sys') :
    sys'.Connected := by
  cases action with
  | connect commands =>
    cases hs
    refine h.connect fun c hc => ?_
    cases hc
    exact ⟨Client.regular_start commands, rfl⟩
  | connectOther =>
    cases hs
    exact h.connect fun c hc => by cases hc
  | client i action =>
    simp only [System.step] at hs
    split at hs
    · next c hi =>
      split at hs
      · next hreads =>
        obtain ⟨c', hc, rfl⟩ := Option.map_eq_some_iff.1 hs
        exact h.client hi hreads hc
      · cases hs
    · cases hs
  | server action =>
    simp only [System.step] at hs
    split at hs
    · next hreads =>
      obtain ⟨srv, hsrv, rfl⟩ := Option.map_eq_some_iff.1 hs
      exact h.server hreads hsrv
    · cases hs

/-- What the server of a system goes through is a run of `Server`. -/
def serverActions (_ : System) : Action → List Server.Action
  | .server action => [action]
  | _ => []

theorem run_server {world : World} {as : List Action} {sys : System}
    (hr : run step (start world) as = some sys) :
    run Server.step (.start world) (outputs step serverActions (start world) as) = some sys.server := by
  refine run_outputs (f := System.server) (fun sys action sys' hs => ?_) hr
  cases action with
  | connect commands =>
    cases hs
    rfl
  | connectOther =>
    cases hs
    rfl
  | client i action =>
    simp only [System.step] at hs
    split at hs
    · split at hs
      · obtain ⟨c', -, rfl⟩ := Option.map_eq_some_iff.1 hs
        rfl
      · cases hs
    · cases hs
  | server action =>
    simp only [System.step] at hs
    split at hs
    · obtain ⟨srv, hsrv, rfl⟩ := Option.map_eq_some_iff.1 hs
      exact run_singleton hsrv
    · cases hs

end System

end ConfigServer
