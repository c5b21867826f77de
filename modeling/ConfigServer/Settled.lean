/-
Nothing is lost and nothing gets stuck, as long as the server runs. While a
client and its session are both connected, the two can come to rest only when
all is done: every command of the client has been dispatched, and it has
processed the response to each of its GETs. As long as something is missing, one
of the two, or a call on the store that the session waits for, can take its next
step. A session of any client that pops an empty queue ends the whole server, and
with it all of this.
-/
import ConfigServer.EndToEnd
import ConfigServer.Progress
import ConfigServer.Working

namespace ConfigServer

open Framing LittleEndian Receiver Runs

/-! ## The sessions of a server -/

/-- A session stays, and the steps it takes are its own. -/
theorem Server.Step.session_next {srv srv' : Server} {a : Server.Action} (h : srv.Step a srv') {i : Nat}
    {s : Owned} (hi : srv.sessions[i]? = some s) :
    ∃ s', srv'.sessions[i]? = some s' ∧ (s' = s ∨ ∃ action, a = .session i action ∧
      (srv.view s.session).step action = some s'.session ∧ s'.destroyed = !s'.session.held) := by
  have hlt := (List.getElem?_eq_some_iff.1 hi).1
  cases h with
  | accept => exact ⟨s, (List.getElem?_append_left hlt).trans hi, .inl rfl⟩
  | @session j action s₀ s₁ hj hown hlive hs hdestroyed =>
    by_cases hij : j = i
    · subst hij
      cases hj.symm.trans hi
      exact ⟨s₁, List.getElem?_set_self hlt, .inr ⟨action, rfl, hs, hdestroyed⟩⟩
    · exact ⟨s, (List.getElem?_set_ne hij).trans hi, .inl rfl⟩
  | acceptFailed => exact ⟨s, hi, .inl rfl⟩
  | call hs => exact ⟨s, hi, .inl rfl⟩
  | saveExpired hwaiting => exact ⟨s, hi, .inl rfl⟩
  | flush hrunning hflush hs => exact ⟨s, hi, .inl rfl⟩
  | statExpired hwaiting => exact ⟨s, hi, .inl rfl⟩
  | dump hrunning hs => exact ⟨s, hi, .inl rfl⟩

/-! ## Both stay connected -/

namespace System

variable {sys sys' : System} {i : Nat} {c : Client} {s : Owned} {a : Action}

/-- The sockets of client `i` and of its session, if that has been made, are open. -/
def up (sys : System) (i : Nat) : Bool :=
  (sys.clients[i]?.join.any fun c => c.conn.isOpen) && sys.server.sessions[i]?.all fun s => s.session.conn.isOpen

/-- Between two open sockets nothing is cut off: a write is aborted, and the end of a stream
is met, only when one of the two has been closed. -/
def steady (sys : System) : Action → Bool
  | .client i action => !action.cut || !sys.up i
  | .server (.session i action) => !action.cut || !sys.up i
  | _ => true

theorem up_iff : sys.up i = true ↔ ∃ c, sys.clients[i]? = some (some c) ∧ c.conn.isOpen = true ∧
    ∀ s, sys.server.sessions[i]? = some s → s.session.conn.isOpen = true := by
  rw [up, Bool.and_eq_true, Option.any_eq_true, Option.all_eq_true]
  constructor
  · rintro ⟨⟨c, hc, hopen⟩, hsession⟩
    exact ⟨c, Option.join_eq_some_iff.1 hc, hopen, hsession⟩
  · rintro ⟨c, hc, hopen, hsession⟩
    exact ⟨⟨c, Option.join_eq_some_iff.2 hc, hopen⟩, hsession⟩

/-- Each of two that are connected does what it has to do, and the session has not been destroyed. -/
structure Attended (sys : System) : Prop where
  client {i : Nat} {c : Client} : sys.clients[i]? = some (some c) → sys.up i = true → c.Working
  session {i : Nat} {s : Owned} : sys.server.sessions[i]? = some s → sys.up i = true →
    s.session.Working ∧ s.destroyed = false

theorem attended_start (world : World) : (start world).Attended where
  client h := nomatch h
  session h := nomatch h

theorem Attended.connect (h : sys.Attended) (hpaired : sys.server.sessions.length ≤ sys.clients.length)
    {client? : Option Client} (hclient : ∀ c ∈ client?, c.Working) :
    Attended { sys with clients := sys.clients ++ [client?] } where
  client {i c} hi hup := by
    by_cases hlt : i < sys.clients.length
    · have hbefore : (sys.clients ++ [client?])[i]? = sys.clients[i]? := List.getElem?_append_left hlt
      refine h.client (hbefore.symm.trans hi) ?_
      rwa [up, hbefore] at hup
    · rw [List.getElem?_append_right (Nat.le_of_not_lt hlt)] at hi
      exact hclient c (List.mem_singleton.1 (List.mem_of_getElem? hi)).symm
  session {i s} hi hup := by
    have hlt := Nat.lt_of_lt_of_le (List.getElem?_eq_some_iff.1 hi).1 hpaired
    have hbefore : (sys.clients ++ [client?])[i]? = sys.clients[i]? := List.getElem?_append_left hlt
    refine h.session hi ?_
    rwa [up, hbefore] at hup

theorem Attended.stepClient (h : sys.Attended) {j : Nat} {c c' : Client} {action : Client.Action}
    (hj : sys.clients[j]? = some (some c)) (hregular : c.Regular)
    (hsteady : sys.steady (.client j action) = true) (hs : c.step action = some c') :
    Attended { sys with clients := sys.clients.set j (some c') } := by
  have hlt := (List.getElem?_eq_some_iff.1 hj).1
  have hup {i : Nat} (hafter : up { sys with clients := sys.clients.set j (some c') } i = true) :
      sys.up i = true := by
    obtain ⟨d, hd, hopen, hsession⟩ := up_iff.1 hafter
    by_cases hij : j = i
    · subst hij
      rw [List.getElem?_set_self hlt] at hd
      cases hd
      exact up_iff.2 ⟨c, hj, Client.open_of_step hs hopen, hsession⟩
    · exact up_iff.2 ⟨d, (List.getElem?_set_ne hij).symm.trans hd, hopen, hsession⟩
  refine ⟨fun {i d} hi hafter => ?_, fun {i s} hi hafter => h.session hi (hup hafter)⟩
  by_cases hij : j = i
  · subst hij
    obtain ⟨d', hd', hopen, -⟩ := up_iff.1 hafter
    cases hi.symm.trans hd'
    rw [List.getElem?_set_self hlt] at hi
    cases hi
    have hbefore := hup hafter
    refine (h.client hj hbefore).step hregular ?_ hs hopen
    simpa [steady, hbefore] using hsteady
  · exact h.client ((List.getElem?_set_ne hij).symm.trans hi) (hup hafter)

theorem Attended.stepServer (h : sys.Attended) {action : Server.Action} {srv : Server}
    (hregular : ∀ s ∈ sys.server.sessions, (sys.server.view s.session).Regular)
    (hsteady : sys.steady (.server action) = true) (hstep : sys.server.Step action srv) :
    Attended { sys with server := srv } := by
  have hup {i : Nat} (hafter : up { sys with server := srv } i = true) : sys.up i = true := by
    obtain ⟨c, hc, hopen, hsession⟩ := up_iff.1 hafter
    refine up_iff.2 ⟨c, hc, hopen, fun s hi => ?_⟩
    obtain ⟨s', hi', rfl | ⟨action, -, hs, -⟩⟩ := hstep.session_next hi
    · exact hsession _ hi'
    · exact Session.open_of_step (s := sys.server.view s.session) hs (hsession _ hi')
  refine ⟨fun {i c} hi hafter => h.client hi (hup hafter), fun {i s'} hi' hafter => ?_⟩
  have hbefore := hup hafter
  rcases hstep.sessions hi' with ⟨s, hi, -⟩ | ⟨rfl, -, rfl⟩
  · obtain ⟨s'', hi'', hnext⟩ := hstep.session_next hi
    cases hi'.symm.trans hi''
    obtain ⟨hworking, hlive⟩ := h.session hi hbefore
    rcases hnext with rfl | ⟨action, rfl, hs, hdestroyed⟩
    · exact ⟨hworking, hlive⟩
    · obtain ⟨c, -, -, hopen⟩ := up_iff.1 hafter
      have hcut : action.cut = false := by simpa [steady, hbefore] using hsteady
      have hworking' : s'.session.Working :=
        Session.Working.step (s := sys.server.view s.session) hworking
          (hregular s (List.mem_of_getElem? hi)) hcut hs
          (hopen s' hi')
      exact ⟨hworking', by rw [hdestroyed, hworking'.held]; rfl⟩
  · exact ⟨Session.working_start _, rfl⟩

theorem Attended.step (h : sys.Attended) (hconnected : sys.Connected)
    (hregular : ∀ s ∈ sys.server.sessions, (sys.server.view s.session).Regular) (hsteady : sys.steady a = true)
    (hs : sys.step a = some sys') : sys'.Attended := by
  cases a with
  | connect commands =>
    cases hs
    refine h.connect hconnected.paired fun c hc => ?_
    cases hc
    exact Client.working_start commands
  | connectOther =>
    cases hs
    exact h.connect hconnected.paired fun c hc => by cases hc
  | client j action =>
    simp only [System.step] at hs
    split at hs
    · next c hj =>
      split at hs
      · obtain ⟨c', hc, rfl⟩ := Option.map_eq_some_iff.1 hs
        exact h.stepClient hj (hconnected.regular (List.mem_of_getElem? hj)) hsteady hc
      · cases hs
    · cases hs
  | server action =>
    simp only [System.step] at hs
    split at hs
    · obtain ⟨srv, hsrv, rfl⟩ := Option.map_eq_some_iff.1 hs
      exact h.stepServer hregular hsteady (Server.step_spec hsrv).2
    · cases hs

theorem run_attended {world : World} {as : List Action} (hr : run step (start world) as = some sys)
    (hsteady : Along step (fun sys a => sys.steady a = true) (start world) as) : sys.Attended := by
  have hnone : (start world).Attended ∧ run step (start world) [] = some (start world) :=
    ⟨attended_start world, rfl⟩
  have hreached : sys.Attended ∧ run step (start world) as = some sys := by
    refine hsteady.trace (J := fun sys bs => sys.Attended ∧ run step (start world) bs = some sys)
      (fun sys a sys' bs h hsteady hs => ?_) hr hnone
    obtain ⟨hattended, hbs⟩ := h
    refine ⟨hattended.step (run_connected hbs) ?_ hsteady hs, run_append.2 ⟨sys, hbs, run_singleton hs⟩⟩
    exact fun s hmem => Server.run_regular (run_server hbs) hmem
  exact hreached.1

end System

/-! ## At rest -/

/-- The strand runs a task, or a write completes. -/
def Connection.Event.works : Connection.Event → Bool
  | .run => true
  | .writeDone _ => true
  | _ => false

/-- The step is one of the connection's work: no timer, no error, no end of a stream. -/
def Client.Action.works : Client.Action → Bool
  | .strand event => event.works
  | .receive chunk => !chunk.isEmpty

def Session.Action.works : Session.Action → Bool
  | .strand event => event.works
  | .receive chunk => !chunk.isEmpty
  | .iterate _ => true
  | .respond _ => true
  | .store _ => false

/-- A handler of session `i` is inside the dispatcher, which has made call `j` on the store. -/
def System.waitsFor (sys : System) (i j : Nat) : Bool :=
  sys.server.sessions[i]?.any fun s => s.session.handlers.any fun handler => handler.inside.any fun p => p.2 == j

/-- The step is one of client `i`, of its session, of a call on the store that this waits for, or a session is
made. -/
def System.works (sys : System) (i : Nat) : System.Action → Bool
  | .client j action => j == i && action.works
  | .server .accept => true
  | .server (.session j action) => j == i && action.works
  | .server (.call j) => sys.waitsFor i j
  | _ => false

/-- Nothing that client `i` waits for can go on. -/
def System.AtRest (sys : System) (i : Nat) : Prop := ∀ a : System.Action, sys.works i a = true → sys.step a = none

/-- A connection on which nothing works is idle. -/
theorem Connection.idle_of_stuck {c : Connection} {messages : List Message} (hsends : c.Sends messages)
    (hserialize : ∀ cmd ∈ messages, ∃ writer, cmd.serialize = .ok writer)
    (hstuck : ∀ event : Event, event.works = true → c.step event = none) : c.Idle := by
  constructor
  · by_contra hstrand
    have henabled := run_enabled hsends hserialize hstrand
    rw [hstuck .run rfl] at henabled
    cases henabled
  · by_contra hflight
    obtain ⟨done, sent, hordered, -⟩ := hsends.split
    have hnone := hstuck (.writeDone 0) rfl
    simp [step, hordered.inv.noFault, complete, List.length_pos_iff.2 hflight] at hnone

theorem Server.run_parsed {world : World} {as : List Server.Action} {srv : Server}
    (hr : run Server.step (.start world) as = some srv) {s : Owned} (hs : s ∈ srv.sessions) : s.session.Parsed :=
  (run_each (I := fun s => s.Regular ∧ s.Parsed)
    ⟨fun h hs => ⟨h.1.step hs, h.2.step h.1 hs⟩, fun _ h => ⟨h.1.world _, h.2⟩⟩
    (fun _ srv _ => ⟨Session.regular_start srv.world, Session.parsed_start srv.world⟩) hr hs).2

/-- While a client has a read outstanding there is room for a byte, and its handler returns. -/
theorem Client.Regular.receive_enabled {c : Client} (h : c.Regular) (hreading : 0 < c.conn.reading)
    (byte : UInt8) :
    (c.receive [byte]).isSome = true := by
  have hstatus := h.reading (Nat.lt_of_lt_of_le hreading (Nat.le_add_right _ _))
  have hunparsed := (h.tracks.carried hstatus).1
  have hsize : maxMessageSize < bufferSize := by decide
  have hroom : [byte].length ≤ c.receiver.free := by
    rw [free_eq h.tracks.unparsed, List.length_singleton]
    omega
  have htracks : Tracks (c.receiver.doReadHandler readClient [byte]) _ :=
    doReadHandler_tracks hstatus h.tracks.unparsed hroom
  unfold receive
  rw [if_pos hroom, Connection.completeRead, if_pos hreading, Option.bind_some]
  generalize c.receiver.doReadHandler readClient [byte] = receiver at htracks ⊢
  dsimp only
  split
  · rfl
  · rfl
  · next hlooping => exact absurd hlooping htracks.not_looping

/-- So has a session. -/
theorem Session.Parsed.receive_enabled {s : Session} (h : s.Parsed) (hreading : 0 < s.conn.reading)
    (byte : UInt8) :
    (s.receive [byte]).isSome = true := by
  have hmore := length_lt_of_more (h (Nat.lt_of_lt_of_le hreading (Nat.le_add_right _ _)))
  have hsize : maxMessageSize < bufferSize := by decide
  have hmodulus : bufferSize < SizeT.modulus := by decide
  rw [Buffer.slice_length, Nat.sub_zero] at hmore
  have hroom : [byte].length ≤ SizeT.sub bufferSize s.unparsedBytes := by
    rw [SizeT.sub_eq (by omega) hmodulus, List.length_singleton]
    omega
  rw [receive, if_pos hroom, Connection.completeRead, if_pos hreading]
  rfl

/-- A session with a read to come has dispatched all the frames it has received. -/
theorem Session.Parsed.all_dispatched {s : Session} (h : s.Parsed) (hregular : s.Regular)
    (hreads : 0 < s.conn.reads) :
    (reference readServer s.received).items = s.calls ∧
      ∃ rest, (reference readServer s.received).status = .reading rest := by
  obtain ⟨rest, ⟨used, hreference⟩, hrests⟩ := hregular.orderly.parsed
  obtain ⟨-, hslice⟩ := hrests.waiting ((unsent_reads _ _).symm ▸ hreads)
  have hmore : frameFront readServer rest = .more := hslice ▸ h hreads
  rw [Cutter.parse_more (c := frames readServer) hmore] at hreference
  rw [hreference]
  exact ⟨List.append_nil _, rest, rfl⟩

/-- A client with a read to come has refused nothing. -/
theorem Client.Regular.reading_on {c : Client} (h : c.Regular) (hreads : 0 < c.conn.reads) :
    ∃ rest, (reference readClient c.received).status = .reading rest := by
  have houtcome := h.tracks.outcome
  simp only [Receiver.outcome, h.reading hreads, Option.some.injEq] at houtcome
  exact ⟨_, congrArg Outcome.status houtcome.symm⟩

/-- A handler in its loop goes on: to the next call on the store, or it returns. -/
theorem Session.iterate_enabled {s : Session} {i n offset : Nat} (hi : s.handlers[i]? = some ⟨n, offset, none⟩) :
    (s.iterate i).isSome = true := by
  simp only [iterate, hi]
  split
  · rfl
  · rfl
  · next call offset' hframe =>
    obtain ⟨message, hlen, hread⟩ := frameStep_message hframe
    have hworld : (s.world.step call.action).isSome = true := by
      cases call with
      | get cmd => rfl
      | set cmd =>
        have hframe := (readServer_accepted hlen hread).2
        rw [ServerCall.frame, setFrame_length, maxMessageSize] at hframe
        have hmodulus : 2 ^ 32 < SizeT.modulus := by decide
        simp [ServerCall.action, World.step, show cmd.key.length < SizeT.modulus by omega,
          show cmd.value.length < SizeT.modulus by omega]
    rw [Option.isSome_map]
    exact hworld

/-- Once the call it waits for has returned, so does `process`. -/
theorem Session.respond_enabled {s : Session} {i n offset j : Nat} {command : ServerCall} {call : Call}
    (hi : s.handlers[i]? = some ⟨n, offset, some (command, j)⟩) (hj : s.world.calls[j]? = some call)
    (hop : call.op = command.op) (hresult : call.result? ≠ none) : (s.respond i).isSome = true := by
  simp only [respond, hi, hj]
  cases call with
  | set c =>
    obtain ⟨key, given, value, pc⟩ := c
    cases command with
    | get cmd => cases hop
    | set cmd =>
      cases pc with
      | done => rfl
      | _ => exact absurd rfl hresult
  | get c =>
    obtain ⟨key, pc⟩ := c
    cases command with
    | set cmd => cases hop
    | get cmd =>
      cases pc with
      | absent => rfl
      | answered e entry => rfl
      | _ => exact absurd rfl hresult

namespace System

variable {sys : System} {i : Nat} {c : Client} {s : Owned}

theorem AtRest.client (h : sys.AtRest i) (hc : sys.clients[i]? = some (some c)) (action : Client.Action)
    (hworks : action.works = true) (hreads : sys.clientReads i c action = true) : c.step action = none := by
  have hnone := h (.client i action) (by simp [works, hworks])
  simpa [step, hc, hreads] using hnone

theorem AtRest.server (h : sys.AtRest i) (action : Server.Action)
    (hworks : sys.works i (.server action) = true)
    (hreads : sys.serverReads action = true) : sys.server.step action = none := by
  have hnone := h (.server action) hworks
  simpa [step, hreads] using hnone

theorem server_enabled {srv : Server} (hfault : srv.NoFault) :
    (srv.sessions.any fun s => s.session.conn.fault.isSome) = false := by
  rw [List.any_eq_false]
  intro s hs
  simp [hfault s hs]

theorem AtRest.session (h : sys.AtRest i) (hs : sys.server.sessions[i]? = some s) (hfault : sys.server.NoFault)
    (hlive : s.destroyed = false) (action : Session.Action) (hworks : action.works = true)
    (hreads : sys.serverReads (.session i action) = true) : (sys.server.view s.session).step action = none := by
  have hnone := h.server (.session i action) (by simp [works, hworks]) hreads
  have hown : action.isOwn = true := by cases action <;> first | rfl | cases hworks
  simpa [Server.step, server_enabled hfault, Server.stepSession, hs, hown, Owned.step, hlive] using hnone

/-- At rest a call that a handler waits for has returned, as long as there are addresses left. -/
theorem AtRest.returned (h : sys.AtRest i) (hs : sys.server.sessions[i]? = some s) (hfault : sys.server.NoFault)
    (hroom : sys.server.world.store.next + 1 < SizeT.modulus) {n offset j : Nat} {command : ServerCall}
    (hwaits : ⟨n, offset, some (command, j)⟩ ∈ s.session.handlers) {call : Call}
    (hj : sys.server.world.calls[j]? = some call) : call.result? ≠ none := by
  intro hresult
  have hworks : sys.waitsFor i j = true := by
    rw [waitsFor, hs, Option.any_some, List.any_eq_true]
    exact ⟨_, hwaits, by rw [Option.any_some, beq_self_eq_true]⟩
  have hnone := h.server (.call j) hworks rfl
  have henabled := Call.step_isSome hroom hresult
  have hstuck : call.step sys.server.world.store = none := by
    simpa [Server.step, server_enabled hfault, World.step, hj] using hnone
  rw [hstuck] at henabled
  cases henabled

/-- Everyone who has connected has a session. -/
theorem AtRest.accepted (h : sys.AtRest i) (hfault : sys.server.NoFault) :
    sys.clients.length ≤ sys.server.sessions.length := by
  by_contra hlt
  have hnone := h.server .accept rfl (by simpa [serverReads] using hlt)
  simp [Server.step, server_enabled hfault] at hnone

/-- What has been received of a stream, when not even its next byte can be. -/
theorem prefix_all {received written : Bytes} (h : received <+: written)
    (hnext : ∀ byte, ¬ received ++ [byte] <+: written) : received = written := by
  obtain ⟨rest, rfl⟩ := h
  cases rest with
  | nil => rw [List.append_nil]
  | cons byte rest =>
    exact absurd ⟨rest, List.append_assoc _ _ _⟩ (hnext byte)

/-- At rest no handler of the session is at work. -/
theorem AtRest.handlers (h : sys.AtRest i) (hs : sys.server.sessions[i]? = some s) (hfault : sys.server.NoFault)
    (hlive : s.destroyed = false) (hroom : sys.server.world.store.next + 1 < SizeT.modulus)
    (hbacked : (sys.server.view s.session).Backed) :
    s.session.handlers = [] := by
  have hnofault : (sys.server.view s.session).conn.fault = none := hfault s (List.mem_of_getElem? hs)
  cases hhandlers : s.session.handlers with
  | nil => rfl
  | cons handler rest =>
    have hzero : (sys.server.view s.session).handlers[0]? = some handler := congrArg (·[0]?) hhandlers
    obtain ⟨n, offset, inside⟩ := handler
    cases inside with
    | none =>
      have henabled := Session.iterate_enabled hzero
      have hnone := h.session hs hfault hlive (.iterate 0) rfl rfl
      simp only [Session.step, hnofault, Option.isSome_none, Bool.false_eq_true, if_false] at hnone
      rw [hnone] at henabled
      cases henabled
    | some waiting =>
      obtain ⟨command, j⟩ := waiting
      obtain ⟨-, call, hj, hop⟩ := hbacked.waits (List.mem_of_getElem? hzero)
      have henabled := Session.respond_enabled hzero hj hop
        (h.returned hs hfault hroom (List.mem_of_getElem? hzero) hj)
      have hnone := h.session hs hfault hlive (.respond 0) rfl rfl
      simp only [Session.step, hnofault, Option.isSome_none, Bool.false_eq_true, if_false] at hnone
      rw [hnone] at henabled
      cases henabled

/-- At rest the session has written all its replies, and received all that its client has written. -/
theorem AtRest.sessionDone (h : sys.AtRest i) (hc : sys.clients[i]? = some (some c))
    (hs : sys.server.sessions[i]? = some s) (hfault : sys.server.NoFault) (hlive : s.destroyed = false)
    (hopen : s.session.conn.isOpen = true) (hworking : s.session.Working)
    (hregular : (sys.server.view s.session).Regular) (hparsed : s.session.Parsed)
    (hhandlers : s.session.handlers = []) (hstreams : Streams c s.session)
    (hreplies : ∀ response ∈ s.session.replies, ∃ writer, response.serialize = .ok writer) :
    s.session.conn.written.map some = (s.session.replies.map Message.getResponse).map Message.frame? ∧
      0 < s.session.conn.reading ∧ s.session.received = c.conn.written.flatten := by
  have hnofault : s.session.conn.fault = none := hfault s (List.mem_of_getElem? hs)
  have hsends : s.session.conn.Sends (s.session.replies.map .getResponse) := hregular.emits.sends hopen
  have hidle : s.session.conn.Idle := by
    refine Connection.idle_of_stuck hsends (fun cmd hcmd => ?_) fun event hworks => ?_
    · obtain ⟨response, hresponse, rfl⟩ := List.mem_map.1 hcmd
      exact hreplies response hresponse
    · have hnone := h.session hs hfault hlive (.strand event) hworks rfl
      have hout : event.outside = true := by cases event <;> first | rfl | cases hworks
      simpa [Session.step, Server.view, hnofault, hout] using hnone
  obtain ⟨hwritten, hreading⟩ := hworking.written hsends hidle
  rw [hhandlers] at hreading
  refine ⟨hwritten, hreading, prefix_all hstreams.toServer fun byte hbyte => ?_⟩
  have henabled := Session.Parsed.receive_enabled (s := sys.server.view s.session) hparsed hreading byte
  have hnone := h.session hs hfault hlive (.receive [byte]) rfl (by simpa [serverReads, hs, hc] using hbyte)
  have hstuck : (sys.server.view s.session).receive [byte] = none := by
    simpa [Session.step, show (sys.server.view s.session).conn.fault = none from hnofault] using hnone
  rw [hstuck] at henabled
  cases henabled

/-- At rest the client has written all its commands, and received all that its session has written. -/
theorem AtRest.clientDone (h : sys.AtRest i) (hc : sys.clients[i]? = some (some c))
    (hs : sys.server.sessions[i]? = some s) (hopen : c.conn.isOpen = true) (hworking : c.Working)
    (hregular : c.Regular) (hstreams : Streams c s.session)
    (hcommands : ∀ command ∈ c.commands, ∃ writer, command.message.serialize = .ok writer) :
    c.conn.written.map some = (c.commands.map ServerCall.message).map Message.frame? ∧
      0 < c.conn.reading ∧ c.received = s.session.conn.written.flatten := by
  have hsends := hregular.emits.sends hopen
  obtain ⟨_, _, hordered, -⟩ := hsends.split
  have hnofault := hordered.inv.noFault
  have hidle : c.conn.Idle := by
    refine Connection.idle_of_stuck hsends (fun cmd hcmd => ?_) fun event hworks => ?_
    · obtain ⟨command, hcommand, rfl⟩ := List.mem_map.1 hcmd
      exact hcommands command hcommand
    · have hnone := h.client hc (.strand event) hworks rfl
      have hout : event.outside = true := by cases event <;> first | rfl | cases hworks
      simpa [Client.step, hnofault, hout] using hnone
  obtain ⟨hwritten, hreading⟩ := hworking.written hsends hidle
  refine ⟨hwritten, hreading, prefix_all hstreams.toClient fun byte hbyte => ?_⟩
  have henabled := hregular.receive_enabled hreading byte
  have hnone := h.client hc (.receive [byte]) rfl (by simpa [clientReads, hs] using hbyte)
  have hstuck : c.receive [byte] = none := by simpa [Client.step, hnofault] using hnone
  rw [hstuck] at henabled
  cases henabled

/-- **Nothing is lost and nothing gets stuck.** Let a run of clients and a server come to a state in which
client `i` and its session are connected and nothing the client waits for can go on. Then
its session has dispatched all its commands, in order, and the client has processed a response to
each of its GETs, in order. No session of the server has popped an empty queue in that run, and there are
addresses for another entry; what was loaded is short enough for a reply, and each command of the client can be
serialized, behind its own length and with a nonzero id if it is a GET. -/
theorem run_settled {s₀ : Store} {as : List Action} (hs₀ : s₀.Wf) (hshort : s₀.Confined Server.Short)
    (hr : run step (start { store := s₀ }) as = some sys)
    (hsteady : Along step (fun sys a => sys.steady a = true) (start { store := s₀ }) as)
    (hc : sys.clients[i]? = some (some c)) (hup : sys.up i = true)
    (hcommands : ∀ command ∈ c.commands, command.Sendable ∧ ∃ writer, command.message.serialize = .ok writer)
    (hfault : sys.server.NoFault) (hroom : sys.server.world.store.next + 1 < SizeT.modulus)
    (hrest : sys.AtRest i) :
    ∃ s, sys.server.sessions[i]? = some s ∧ s.session.calls = c.commands ∧
      c.receiver.calls = s.session.replies ∧
      c.receiver.calls.map GetCommandResponse.tag = (c.commands.flatMap ServerCall.gets).map GetCommand.tag := by
  have hconnected := run_connected hr
  have hserver := run_server hr
  have hlt := Nat.lt_of_lt_of_le (List.getElem?_eq_some_iff.1 hc).1 (hrest.accepted hfault)
  obtain ⟨s, hs⟩ : ∃ s, sys.server.sessions[i]? = some s := ⟨_, List.getElem?_eq_getElem hlt⟩
  have hsession := List.mem_of_getElem? hs
  obtain ⟨c', hc', hopen, hopened⟩ := up_iff.1 hup
  cases hc.symm.trans hc'
  have hattended := run_attended hr hsteady
  obtain ⟨hworking, hlive⟩ := hattended.session hs hup
  have hregular := Server.run_regular hserver hsession
  have hclient := hconnected.regular (List.mem_of_getElem? hc)
  have hstreams := hconnected.streams hc hs
  have hhandlers := hrest.handlers hs hfault hlive hroom (Server.run_waits hserver hsession)
  have hparsed := Server.run_parsed hserver hsession
  -- What each of the two has written, the other has received.
  obtain ⟨hwritten, hreading, hreceived⟩ :=
    hrest.clientDone hc hs hopen (hattended.client hc hup) hclient hstreams
    fun command hcommand => (hcommands command hcommand).2
  obtain ⟨hwritten', hreading', hreceived'⟩ :=
    hrest.sessionDone hc hs hfault hlive (hopened s hs) hworking hregular
    hparsed hhandlers hstreams fun response hresponse =>
      ⟨_, responseFormat.serialize_ok response
        (Server.responseFits_of_short (Server.run_short hs₀ hshort hserver hsession hresponse))⟩
  have hcalls : s.session.calls = c.commands := by
    obtain ⟨hitems, rest, hstatus⟩ :=
      Session.Parsed.all_dispatched (s := sys.server.view s.session) hparsed hregular
      (Nat.lt_of_lt_of_le hreading' (Nat.le_add_right _ _))
    have hwhole : (sys.server.view s.session).received = c.conn.written.flatten := hreceived'
    rw [hwhole] at hitems hstatus
    refine hitems.symm.trans (items_of_all_written (fun command hcommand writer hw => ?_) hwritten hstatus)
    exact (hcommands command hcommand).1.front hw
  have hresponses : c.receiver.calls = s.session.replies := by
    obtain ⟨rest, hstatus⟩ := hclient.reading_on (Nat.lt_of_lt_of_le hreading (Nat.le_add_right _ _))
    rw [hclient.calls, hreceived]
    rw [hreceived] at hstatus
    refine items_of_all_written (fun response hresponse writer hw => ?_) hwritten' hstatus
    exact reply_front hs₀ hshort hserver hsession hresponse hw
  refine ⟨s, hs, hcalls, hresponses, ?_⟩
  have hanswered : s.session.replies.map GetCommandResponse.tag ++
      (s.session.handlers.flatMap Handler.gets).map GetCommand.tag =
        (s.session.calls.flatMap ServerCall.gets).map GetCommand.tag := hregular.orderly.answered
  rw [hhandlers, List.flatMap_nil, List.map_nil, List.append_nil, hcalls] at hanswered
  rw [hresponses, hanswered]

/-- What the client waits for is at rest when both connections are idle and both streams have been read. -/
theorem atRest_of_idle (haccepted : sys.clients.length ≤ sys.server.sessions.length)
    (hc : sys.clients[i]? = some (some c)) (hs : sys.server.sessions[i]? = some s) (hidle : c.conn.Idle)
    (hidle' : s.session.conn.Idle) (hhandlers : s.session.handlers = [])
    (hclient : s.session.conn.written.flatten.length ≤ c.received.length)
    (hsession : c.conn.written.flatten.length ≤ s.session.received.length) : sys.AtRest i := by
  have hstuck {conn : Connection} (hidle : conn.Idle) {event : Connection.Event} (hworks : event.works = true) :
      conn.step event = none := by
    cases event with
    | run => simp [Connection.step, hidle.1]
    | writeDone k => simp [Connection.step, Connection.complete, hidle.2]
    | _ => cases hworks
  have hread {received written chunk : Bytes} (hall : written.length ≤ received.length) (hchunk : chunk ≠ []) :
      ¬ received ++ chunk <+: written := by
    intro hprefix
    have hle := hprefix.length_le
    have hpos := List.length_pos_iff.2 hchunk
    rw [List.length_append] at hle
    omega
  intro a ha
  cases a with
  | connect commands => cases ha
  | connectOther => cases ha
  | client j action =>
    simp only [works, Bool.and_eq_true, beq_iff_eq] at ha
    obtain ⟨rfl, hworks⟩ := ha
    cases action with
    | strand event => simp [step, hc, clientReads, Client.step, hstuck hidle hworks]
    | receive chunk =>
      have hchunk : chunk ≠ [] := by simpa [Client.Action.works] using hworks
      simp [step, hc, clientReads, hs, hread hclient hchunk]
  | server action =>
    cases action with
    | accept => simp [step, serverReads, haccepted]
    | session j action =>
      simp only [works, Bool.and_eq_true, beq_iff_eq] at ha
      obtain ⟨rfl, hworks⟩ := ha
      cases action with
      | strand event =>
        simp [step, serverReads, Server.step, Server.stepSession, hs, Session.Action.isOwn, Owned.step,
          Session.step, Server.view, hstuck hidle' hworks]
      | receive chunk =>
        have hchunk : chunk ≠ [] := by simpa [Session.Action.works] using hworks
        simp [step, serverReads, hs, hc, hread hsession hchunk]
      | iterate k =>
        simp [step, serverReads, Server.step, Server.stepSession, hs, Session.Action.isOwn, Owned.step,
          Session.step, Server.view, Session.iterate, hhandlers]
      | respond k =>
        simp [step, serverReads, Server.step, Server.stepSession, hs, Session.Action.isOwn, Owned.step,
          Session.step, Server.view, Session.respond, hhandlers]
      | store action => cases hworks
    | call j => simp [works, waitsFor, hs, hhandlers] at ha
    | _ => cases ha

/-- The spammer and its session write and read what there is left. -/
def settled : List Action := spammed ++
  [.client 0 (.strand (.writeDone 0)), .client 0 (.strand .run), .server (.session 0 (.iterate 0)),
    .server (.session 0 (.strand (.writeDone 0))), .server (.session 0 (.strand .run))]

set_option maxRecDepth 4000 in
theorem run_settled_spammed :
    ∃ sys c, run step (start { store := {} }) settled = some sys ∧ sys.clients[0]? = some (some c) ∧
      c.commands = [.set ⟨testKey1, testValue1⟩, .get ⟨testKey1, 1⟩] ∧
      ∃ s, sys.server.sessions[0]? = some s ∧ s.session.calls = c.commands ∧
        c.receiver.calls = s.session.replies ∧
        c.receiver.calls.map GetCommandResponse.tag =
          (c.commands.flatMap ServerCall.gets).map GetCommand.tag := by
  have hrun : (run step (start { store := {} }) settled).bind (fun sys =>
      sys.clients[0]?.join.bind fun c => sys.server.sessions[0]?.map fun s =>
        (decide (sys.clients.length ≤ sys.server.sessions.length) && decide c.conn.Idle &&
          decide s.session.conn.Idle && decide (s.session.handlers = []) &&
          decide (s.session.conn.written.flatten.length ≤ c.received.length) &&
          decide (c.conn.written.flatten.length ≤ s.session.received.length) &&
          sys.up 0 && sys.server.sessions.all (fun s => s.session.conn.fault.isNone) &&
          decide (sys.server.world.store.next + 1 < SizeT.modulus) &&
          decide (c.commands = [.set ⟨testKey1, testValue1⟩, .get ⟨testKey1, 1⟩]))) = some true := by
    decide
  obtain ⟨sys, hr, hrest⟩ := Option.bind_eq_some_iff.1 hrun
  obtain ⟨c, hc, hrest⟩ := Option.bind_eq_some_iff.1 hrest
  obtain ⟨s, hs, heq⟩ := Option.map_eq_some_iff.1 hrest
  simp only [Bool.and_eq_true, decide_eq_true_eq, List.all_eq_true, Option.isNone_iff_eq_none] at heq
  obtain ⟨⟨⟨⟨⟨⟨⟨⟨⟨haccepted, hidle⟩, hidle'⟩, hhandlers⟩, hclient⟩, hsession⟩, hup⟩, hfault⟩, hroom⟩,
    hcommands⟩ := heq
  have hc := Option.join_eq_some_iff.1 hc
  have hserialize :
      ∀ command ∈ c.commands, command.Sendable ∧ ∃ writer, command.message.serialize = .ok writer := by
    rw [hcommands]
    refine fun command hmem => ⟨sendable_spammed command hmem, ?_⟩
    rcases List.mem_cons.1 hmem with rfl | hmem
    · exact ⟨_, rfl⟩
    · cases List.mem_singleton.1 hmem
      exact ⟨_, rfl⟩
  exact ⟨sys, c, hr, hc, hcommands, run_settled Store.wf_empty Server.confined_short hr
    (by decide) hc hup hserialize
    hfault hroom (atRest_of_idle haccepted hc hs hidle hidle' hhandlers hclient hsession)⟩

end System

end ConfigServer
