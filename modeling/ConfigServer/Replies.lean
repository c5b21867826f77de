/-
What a server answers. A reply of any session is "not found", or it carries a
value that its key was loaded with or that some session has received in a SET of
the key, or the empty string that such a SET leaves when it has to try again.

And it can be sent: a command that is dispatched came in a frame of at most
`MAX_MESSAGE_SIZE`, so a reply is too short for `serialize` to throw, unless the
store was loaded with longer values. So no task of a strand throws.
-/
import ConfigServer.ReplySize
import ConfigServer.ServerFacts
import ConfigServer.Wire

namespace ConfigServer

open LittleEndian Receiver Runs

/-! ## What is dispatched -/

/-- A command that the loop advances over was read from a frame that is not too long. -/
theorem Receiver.frameStep_message {C : Type} {read : Bytes → Except String C} {buffer : Buffer}
    {n offset offset' : Nat} {call : C} (h : frameStep read buffer n offset = .advance call offset') :
    ∃ message, message.length + msgSizeBytes ≤ maxMessageSize ∧ read message = .ok call := by
  unfold frameStep at h
  dsimp only at h
  split at h
  · split at h
    · cases h
    · next hsize =>
      split at h
      · cases h
      · split at h
        · cases h
        · next call' hread =>
          cases h
          refine ⟨_, ?_, hread⟩
          rw [Buffer.slice_length]
          omega
  · cases h

theorem readServer_accepted {message : Bytes} {call : ServerCall}
    (hlen : message.length + msgSizeBytes ≤ maxMessageSize)
    (h : readServer message = .ok call) : call.Accepted := by
  simp only [maxMessageSize, msgSizeBytes] at hlen
  obtain ⟨hgood, rfl⟩ := (readServer_ok (by omega)).1 h
  refine ⟨hgood, ?_⟩
  rw [ServerCall.frame_eq, List.length_append, leBytes_length, maxMessageSize]
  omega

namespace Session

/-- The commands dispatched are accepted ones, and the strand sends replies only. -/
structure Sane (s : Session) : Prop where
  accepted {command : ServerCall} : command ∈ s.calls → command.Accepted
  posted {cmd : Message} : .send cmd ∈ s.conn.strand → ∃ response ∈ s.replies, cmd = .getResponse response

theorem sane_start (world : World) : (start world).Sane where
  accepted h := absurd h List.not_mem_nil
  posted h := by simp [start, Connection.post] at h

end Session

/-- What happens outside the session posts no `send`. -/
theorem Connection.step_posts {c c' : Connection} {event : Event} (hout : event.outside = true)
    (hs : c.step event = some c') {cmd : Message} (hmem : .send cmd ∈ c'.strand) : .send cmd ∈ c.strand := by
  cases (step_spec hs).2 with
  | readCall => cases hout
  | sendCall => cases hout
  | readDone hreading => cases hout
  | run hstrand htask =>
    rw [(runTask_frame htask).1] at hmem
    rw [hstrand]
    exact List.mem_cons_of_mem _ hmem
  | writeDone hi => simpa [Connection.post] using hmem
  | writeFailed hi => simpa [Connection.post] using hmem
  | writeAborted hi => exact hmem
  | readFailed hreading => simpa [Connection.post] using hmem
  | readEnded hreading => exact hmem
  | timerExpired harmed => exact hmem
  | timerHandler hqueued => simpa [Connection.post] using hmem

namespace Session

theorem Sane.step {s s' : Session} {action : Action} (h : s.Sane) (hs : s.step action = some s') : s'.Sane := by
  cases action with
  | strand event =>
    cases step_spec hs with
    | strand hout hconn => exact ⟨h.accepted, fun hmem => h.posted (Connection.step_posts hout hconn hmem)⟩
  | receive chunk =>
    cases step_spec hs with
    | receive hroom hreading => exact ⟨h.accepted, h.posted⟩
  | iterate i =>
    obtain ⟨n, offset, hi, ⟨hstop, rfl⟩ | ⟨⟨e, hfail⟩, rfl⟩ | ⟨call, offset', world, hframe, hworld, rfl⟩⟩ :=
      iterate_cases (step_iterate hs)
    · obtain ⟨-, hcalls, hreplies⟩ := s.carryOver_frame n offset
      refine ⟨fun hmem => h.accepted (hcalls ▸ hmem), fun hmem => ?_⟩
      dsimp only at hmem ⊢
      rw [Connection.doRead_frame.1] at hmem
      rw [hreplies]
      exact h.posted hmem
    · exact ⟨h.accepted, fun hmem => h.posted (by simpa [Connection.post] using hmem)⟩
    · refine ⟨fun hmem => ?_, h.posted⟩
      rcases List.mem_append.1 hmem with hmem | hmem
      · exact h.accepted hmem
      · obtain ⟨message, hlen, hread⟩ := frameStep_message hframe
        exact List.mem_singleton.1 hmem ▸ readServer_accepted hlen hread
  | respond i =>
    obtain ⟨n, offset, j, ⟨cmd, call, response, -, -, -, rfl⟩ | ⟨cmd, c, -, -, -, rfl⟩⟩ :=
      respond_cases (step_respond hs)
    · refine ⟨h.accepted, fun {cmd} hmem => ?_⟩
      rcases List.mem_append.1 hmem with hmem | hmem
      · obtain ⟨response', hreply, heq⟩ := h.posted hmem
        exact ⟨response', List.mem_append_left _ hreply, heq⟩
      · cases List.mem_singleton.1 hmem
        exact ⟨response, List.mem_append_right _ (List.mem_singleton_self _), rfl⟩
    · exact ⟨h.accepted, h.posted⟩
  | store action =>
    obtain ⟨world, hworld, rfl⟩ := Option.map_eq_some_iff.1 (step_store hs)
    exact ⟨h.accepted, h.posted⟩

end Session

namespace Server

variable {world : World} {as : List Action} {srv : Server} {s : Owned}

theorem run_sane (hr : run step (start world) as = some srv) (hs : s ∈ srv.sessions) : s.session.Sane := by
  have h := run_each (I := Session.Sane) ⟨fun h hs => h.step hs, fun _ h => ⟨h.accepted, h.posted⟩⟩
    (fun _ srv _ => Session.sane_start srv.world) hr hs
  exact ⟨h.accepted, h.posted⟩

theorem run_waits (hr : run step (start world) as = some srv) (hs : s ∈ srv.sessions) :
    (srv.view s.session).Backed :=
  run_each (I := Session.Backed) ⟨fun h hs => h.step hs, fun _ h => ⟨h.waits, h.replies⟩⟩
    (fun _ srv _ => Session.backed_start srv.world) hr hs

/-- A reply says what a call of `get` has come to, one that was made for a GET of the session. -/
theorem run_backed (hr : run step (start world) as = some srv) (hs : s ∈ srv.sessions)
    {response : GetCommandResponse} (hresponse : response ∈ s.session.replies) :
    ∃ cmd : GetCommand, .get cmd ∈ s.session.calls ∧
      ((∃ i : Nat, srv.world.calls[i]? = some (.get ⟨cmd.key, .absent⟩) ∧
          response = .ofGet cmd ServerDispatcher.notFound 0 0) ∨
        ∃ (i : Nat) (e : EntryPtr) (entry : Entry),
          srv.world.calls[i]? = some (.get ⟨cmd.key, .answered e entry⟩) ∧
            response = .ofGet cmd entry.value entry.reads entry.writes) := by
  obtain ⟨cmd, hcmd, j, call, hj, hop, hanswer⟩ := (run_waits hr hs).replies hresponse
  refine ⟨cmd, hcmd, ?_⟩
  unfold Call.response? at hanswer
  split at hanswer
  · cases hop
    cases hanswer
    exact .inl ⟨j, hj, rfl⟩
  · cases hop
    cases hanswer
    exact .inr ⟨j, _, _, hj, rfl⟩
  · cases hanswer

/-- A reply has the id of a GET that has been accepted. -/
theorem run_requestId (hr : run step (start world) as = some srv) (hs : s ∈ srv.sessions)
    {response : GetCommandResponse} (hresponse : response ∈ s.session.replies) : response.requestId ≠ 0 := by
  obtain ⟨cmd, hcmd, ⟨i, -, rfl⟩ | ⟨i, e, entry, -, rfl⟩⟩ := run_backed hr hs hresponse
  · exact ((run_sane hr hs).accepted hcmd).1.2
  · exact ((run_sane hr hs).accepted hcmd).1.2

/-- The value was loaded for the key, or a SET of the key has been dispatched
with it, or it is the empty string and a SET of the key has been dispatched. -/
def Written (srv : Server) (s₀ : Store) (key value : Bytes) : Prop :=
  s₀.content key = some value ∨ ∃ given, srv.Dispatched (.set ⟨key, given⟩) ∧ (value = given ∨ value = [])

/-- What a call of `get` has been answered with was written to its key. -/
theorem run_answered {s₀ : Store} (hs₀ : s₀.Wf) (hr : run step (start { store := s₀ }) as = some srv) {i : Nat}
    {key : Bytes} {e : EntryPtr} {entry : Entry}
    (hi : srv.world.calls[i]? = some (.get ⟨key, .answered e entry⟩)) :
    srv.Written s₀ key entry.value := by
  obtain ⟨⟨stats, hworld⟩, hsets⟩ := run_world hr
  rcases (World.run_confined_written hs₀ hworld).calls _ (List.mem_of_getElem? hi) with hloaded |
    ⟨given, hset, hvalue⟩
  · exact .inl hloaded
  · exact .inr ⟨given, hsets _ _ hset, hvalue⟩

/-- In any run of a server, a reply is to a GET of its own session; it is "not found",
for a key that was not loaded, or carries a value that was loaded for the key or
has been set by a session, or the empty string, which a SET of a session leaves
when it has to try again. -/
theorem run_replies {s₀ : Store} (hs₀ : s₀.Wf) (hr : run step (start { store := s₀ }) as = some srv)
    (hs : s ∈ srv.sessions) {response : GetCommandResponse} (hresponse : response ∈ s.session.replies) :
    ∃ cmd : GetCommand, .get cmd ∈ s.session.calls ∧
      (response = .ofGet cmd ServerDispatcher.notFound 0 0 ∧ s₀.content cmd.key = none ∨
        ∃ value reads writes, response = .ofGet cmd value reads writes ∧ srv.Written s₀ cmd.key value) := by
  obtain ⟨cmd, hcmd, ⟨i, hi, rfl⟩ | ⟨i, e, entry, hi, rfl⟩⟩ := run_backed hr hs hresponse
  · refine ⟨cmd, hcmd, .inl ⟨rfl, ?_⟩⟩
    by_contra hloaded
    obtain ⟨⟨stats, hworld⟩, -⟩ := run_world hr
    have hshown : World.Shown cmd.key { store := s₀ } := .inl (Option.isSome_iff_ne_none.2 hloaded)
    have hfound : (srv.world.withStats stats).Found cmd.key 0 :=
      invariant (fun _ _ _ h hs => h.step hs) hworld ((World.coherent_start hs₀).found hshown)
    exact hfound.finds (Nat.zero_le i) hi rfl
  · exact ⟨cmd, hcmd, .inr ⟨entry.value, entry.reads, entry.writes, rfl, run_answered hs₀ hr hi⟩⟩

/-! ## What is sent -/

/-- The pair is short enough for a reply with both of its strings to be as long as its prefix says. -/
def Short (key value : Bytes) : Prop := 31 + key.length + value.length < 2 ^ 32

theorem short_of_set {cmd : SetCommand} (h : (ServerCall.set cmd).Accepted) :
    Short cmd.key cmd.value ∧ Short cmd.key [] := by
  have hlen := h.2
  rw [ServerCall.frame, setFrame_length, maxMessageSize] at hlen
  simp only [Short, List.length_nil]
  omega

/-- Every reply is one that `serialize` writes, behind its own length. -/
theorem run_short {s₀ : Store} (hs₀ : s₀.Wf) (hshort : s₀.Confined Short)
    (hr : run step (start { store := s₀ }) as = some srv) (hs : s ∈ srv.sessions)
    {response : GetCommandResponse} (hresponse : response ∈ s.session.replies) :
    Short response.key response.value := by
  obtain ⟨⟨stats, hworld⟩, hsets⟩ := run_world hr
  have hconfined : (srv.world.withStats stats).Confined Short := by
    refine World.run_confined hs₀ hshort (fun a ha => ?_) hworld
    cases a with
    | callSet key value =>
      obtain ⟨s', hs', hset⟩ := hsets key value ha
      exact short_of_set ((run_sane hr hs').accepted hset)
    | _ => trivial
  obtain ⟨cmd, hcmd, ⟨i, hi, rfl⟩ | ⟨i, e, entry, hi, rfl⟩⟩ := run_backed hr hs hresponse
  · have hlen := ((run_sane hr hs).accepted hcmd).2
    rw [ServerCall.frame, getFrame_length, maxMessageSize] at hlen
    simp only [Short, GetCommandResponse.ofGet, ServerDispatcher.notFound, List.length_cons, List.length_nil]
    omega
  · exact hconfined.calls _ (List.mem_of_getElem? hi)

theorem responseFits_of_short {response : GetCommandResponse} (h : Short response.key response.value) :
    responseFormat.Fits response := by
  simp only [Short] at h
  exact ⟨by omega, by omega⟩

/-- **No exception ends the server.** On a store loaded with strings below 4 GiB, less 31 bytes, every
reply of every session is serialized, into a message that starts with its own
length; so whatever task its strand has, running it does not throw. -/
theorem run_sends {s₀ : Store} (hs₀ : s₀.Wf) (hshort : s₀.Confined Short)
    (hr : run step (start { store := s₀ }) as = some srv) (hs : s ∈ srv.sessions) :
    (∀ response ∈ s.session.replies, ∃ writer, response.serialize = .ok writer ∧
        writer.buffer.length = 31 + response.key.length + response.value.length ∧
        leNat (writer.buffer.take 4) = writer.buffer.length) ∧
      (s.session.conn.fault = none → s.session.conn.strand ≠ [] → (s.session.conn.step .run).isSome = true) := by
  have hwrites (response : GetCommandResponse) (hresponse : response ∈ s.session.replies) :
      ∃ writer, response.serialize = .ok writer ∧
        writer.buffer.length = 31 + response.key.length + response.value.length ∧
        leNat (writer.buffer.take 4) = writer.buffer.length := by
    have hlen := run_short hs₀ hshort hr hs hresponse
    have hok := responseFormat.serialize_ok response (responseFits_of_short hlen)
    have hframe := (responseFormat.serialize_eq hok).2
    have hlength := responseFrame_length response
    refine ⟨_, hok, by rw [hframe, hlength], ?_⟩
    rw [hframe, responseFormat.frame_prefix, hlength]
    exact Nat.mod_eq_of_lt hlen
  refine ⟨hwrites, fun hfault hstrand => ?_⟩
  obtain ⟨task, tasks, htasks⟩ := List.exists_cons_of_ne_nil hstrand
  simp only [Connection.step, hfault, htasks, Option.isSome_none, Bool.false_eq_true, if_false]
  cases task with
  | send cmd =>
    obtain ⟨response, hresponse, rfl⟩ := (run_sane hr hs).posted (htasks ▸ List.mem_cons_self)
    obtain ⟨writer, hok, -⟩ := hwrites response hresponse
    simp only [Connection.runTask, Connection.runSend, Message.serialize, hok]
    split <;> rfl
  | _ => rfl

theorem confined_short : ({} : Store).Confined Short := by
  intro key e he
  cases he

/-- The reply to the GET of `twoClients`. -/
theorem run_sends_twoClients :
    ∃ srv s, run step (start { store := {} }) twoClients = some srv ∧ s ∈ srv.sessions ∧
      s.session.replies.length = 1 ∧
      (∀ response ∈ s.session.replies, ∃ writer, response.serialize = .ok writer ∧
        writer.buffer.length = 31 + response.key.length + response.value.length ∧
        leNat (writer.buffer.take 4) = writer.buffer.length) ∧
      (s.session.conn.fault = none → s.session.conn.strand ≠ [] → (s.session.conn.step .run).isSome = true) := by
  have hreplies : (run step (start { store := {} }) twoClients).bind (fun srv =>
      srv.sessions[0]?.map fun s => s.session.replies.length) = some 1 := by decide
  obtain ⟨srv, hr, hfirst⟩ := Option.bind_eq_some_iff.1 hreplies
  obtain ⟨s, hi, hone⟩ := Option.map_eq_some_iff.1 hfirst
  have hs := List.mem_of_getElem? hi
  exact ⟨srv, s, hr, hs, hone, run_sends Store.wf_empty confined_short hr hs⟩

end Server

end ConfigServer
