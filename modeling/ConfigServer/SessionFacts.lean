/-
A session and the store. Each command dispatched is a call on the store, which
the handler waits for, and a reply says what the call of its GET has found. So
a session's run is one of the store, too, and what is known of the answers of
calls is known of the replies to clients.
-/
import ConfigServer.Lifetime
import ConfigServer.Linearizable
import ConfigServer.Provenance

namespace ConfigServer

open Receiver Runs ServerDispatcher

/-- The response that `process` makes of what a call of `get` has come to. -/
def Call.response? (cmd : GetCommand) : Call → Option GetCommandResponse
  | .get ⟨_, .absent⟩ => some (.ofGet cmd notFound 0 0)
  | .get ⟨_, .answered _ entry⟩ => some (.ofGet cmd entry.value entry.reads entry.writes)
  | _ => none

namespace Session

/-! ## The steps of a handler -/

theorem iterate_cases {s s' : Session} {i : Nat} (h : s.iterate i = some s') :
    ∃ n offset, s.handlers[i]? = some ⟨n, offset, none⟩ ∧
      (frameStep readServer s.buffer n offset = .stopped ∧
          s' = { s.carryOver n offset with conn := s.conn.doRead, handlers := s.handlers.eraseIdx i } ∨
        (∃ e, frameStep readServer s.buffer n offset = .failed e) ∧
          s' = { s with conn := s.conn.post (.close .read), handlers := s.handlers.eraseIdx i } ∨
        ∃ call offset' world, frameStep readServer s.buffer n offset = .advance call offset' ∧
          s.world.step call.action = some world ∧
          s' = { s with
            handlers := s.handlers.set i ⟨n, offset', some (call, s.world.calls.length)⟩
            world
            calls := s.calls ++ [call] }) := by
  unfold iterate at h
  split at h
  · next n offset hi =>
    refine ⟨n, offset, hi, ?_⟩
    split at h
    · next hstop =>
      cases h
      exact .inl ⟨hstop, rfl⟩
    · next e hfail =>
      cases h
      exact .inr (.inl ⟨⟨e, hfail⟩, rfl⟩)
    · next call offset' hframe =>
      obtain ⟨world, hworld, rfl⟩ := Option.map_eq_some_iff.1 h
      exact .inr (.inr ⟨call, offset', world, hframe, hworld, rfl⟩)
  · cases h

theorem respond_cases {s s' : Session} {i : Nat} (h : s.respond i = some s') :
    ∃ n offset j,
      (∃ cmd call response, s.handlers[i]? = some ⟨n, offset, some (.get cmd, j)⟩ ∧
          s.world.calls[j]? = some call ∧ call.response? cmd = some response ∧
          s' = { s with handlers := s.handlers.set i { n, offset } }.send response) ∨
        ∃ cmd c, s.handlers[i]? = some ⟨n, offset, some (.set cmd, j)⟩ ∧
          s.world.calls[j]? = some (.set c) ∧ c.pc = .done ∧
          s' = { s with handlers := s.handlers.set i { n, offset } } := by
  unfold respond at h
  split at h
  · next n offset call j hi =>
    refine ⟨n, offset, j, ?_⟩
    dsimp only at h
    split at h
    · next cmd key hj =>
      cases h
      exact .inl ⟨cmd, _, _, hi, hj, rfl, rfl⟩
    · next cmd key e entry hj =>
      cases h
      exact .inl ⟨cmd, _, _, hi, hj, rfl, rfl⟩
    · next cmd key given value hj =>
      cases h
      exact .inr ⟨cmd, _, hi, hj, rfl, rfl⟩
    · cases h
  · cases h

theorem carryOver_frame (s : Session) (n offset : Nat) :
    (s.carryOver n offset).world = s.world ∧ (s.carryOver n offset).calls = s.calls ∧
      (s.carryOver n offset).replies = s.replies := by
  unfold carryOver
  split <;> exact ⟨rfl, rfl, rfl⟩

theorem carryOver_conn (s : Session) (conn : Connection) (n offset : Nat) :
    Session.carryOver { s with conn } n offset = { s.carryOver n offset with conn } := by
  unfold carryOver
  split <;> rfl

/-- A session takes a step when its connection has no fault. -/
theorem step_enabled {s s' : Session} {action : Session.Action} (h : s.step action = some s') :
    s.conn.fault = none := by
  unfold step at h
  split at h
  · cases h
  · next hfault => simpa using hfault

theorem step_iterate {s s' : Session} {i : Nat} (h : s.step (.iterate i) = some s') :
    s.iterate i = some s' := by
  simpa [step, step_enabled h] using h

theorem step_respond {s s' : Session} {i : Nat} (h : s.step (.respond i) = some s') :
    s.respond i = some s' := by
  simpa [step, step_enabled h] using h

theorem step_store {s s' : Session} {action : ConfigServer.Action} (h : s.step (.store action) = some s') :
    (s.world.step action).map (fun world => { s with world }) = some s' := by
  simpa [step, step_enabled h] using h

/-- What a step of the session does to the store. -/
def storeActions (s : Session) : Session.Action → List ConfigServer.Action
  | .iterate i =>
    match s.handlers[i]? with
    | some ⟨n, offset, none⟩ =>
      match frameStep readServer s.buffer n offset with
      | .advance call _ => [call.action]
      | _ => []
    | _ => []
  | .store action => [action]
  | _ => []

theorem step_world {s s' : Session} {action : Session.Action} (h : s.step action = some s') :
    run World.step s.world (s.storeActions action) = some s'.world := by
  unfold step at h
  split at h
  · cases h
  · cases action with
    | strand event =>
      dsimp only at h
      split at h
      · obtain ⟨conn, -, rfl⟩ := Option.map_eq_some_iff.1 h
        rfl
      · cases h
    | receive chunk =>
      dsimp only [Session.receive] at h
      split at h
      · obtain ⟨conn, -, rfl⟩ := Option.map_eq_some_iff.1 h
        rfl
      · cases h
    | iterate i =>
      obtain ⟨n, offset, hi, ⟨hstop, rfl⟩ | ⟨⟨e, hfail⟩, rfl⟩ | ⟨call, offset', world, hframe, hworld, rfl⟩⟩ :=
        iterate_cases h
      · simp only [storeActions, hi, hstop, carryOver]
        split <;> rfl
      · simp only [storeActions, hi, hfail]
        rfl
      · simp only [storeActions, hi, hframe, run, hworld]
        rfl
    | respond i =>
      obtain ⟨n, offset, j, ⟨cmd, call, response, -, -, -, rfl⟩ | ⟨cmd, c, -, -, -, rfl⟩⟩ := respond_cases h
      · rfl
      · rfl
    | store action =>
      obtain ⟨world, hworld, rfl⟩ := Option.map_eq_some_iff.1 h
      simp only [storeActions, run, hworld]
      rfl

end Session

/-! ## Whatever becomes of the connection -/

namespace Connection

variable {c c' : Connection} {messages : List Message} {event : Event}

/-- `messages` have been posted. What has been written comes first of them, and once
the socket is closed nothing is written any more. -/
structure Emits (c : Connection) (messages : List Message) : Prop where
  sends : c.isOpen = true → c.Sends messages
  closed : c.isOpen = false → c.sendQueue = [] ∧ c.written.map some <+: messages.map Message.frame?

theorem Sends.emits (h : c.Sends messages) : c.Emits messages := by
  obtain ⟨_, sent, hordered, -⟩ := h.split
  exact ⟨fun _ => h, fun hclosed => absurd (hclosed.symm.trans hordered.isOpen) Bool.false_ne_true⟩

theorem Emits.written (h : c.Emits messages) : c.written.map some <+: messages.map Message.frame? := by
  cases hopen : c.isOpen with
  | true => exact (h.sends hopen).written
  | false => exact (h.closed hopen).2

/-- Nothing is put in the queue of a closed socket. -/
theorem closed_queue (hopen : c.isOpen = false) (hempty : c.sendQueue = []) (hs : c.step event = some c') :
    c'.sendQueue = [] := by
  cases (step_spec hs).2 with
  | @run task tasks _ hstrand htask =>
    cases task with
    | read =>
      cases htask
      simp [Connection.doRead, hopen, hempty]
    | send cmd =>
      simp only [Connection.runTask, Connection.runSend, hopen, Bool.not_false, if_true] at htask
      cases htask
      exact hempty
    | sendNext =>
      cases htask
      simp [Connection.sendNext, hempty]
    | close cause =>
      cases htask
      simp [Connection.close, hopen, hempty]
  | readDone hreading => simp [Connection.doRead, hopen, hempty]
  | _ => exact hempty

theorem Emits.step (h : c.Emits messages) (hout : event.outside = true) (hs : c.step event = some c') :
    c'.Emits messages := by
  cases hopen : c.isOpen with
  | true =>
    have hsends := h.sends hopen
    cases hclose : c.closes event with
    | false => exact (hsends.step hout hclose hs).emits
    | true =>
      have hwritten := hsends.written
      unfold closes at hclose
      split at hclose
      · split at hclose
        · next cause tasks hstrand =>
          simp only [Connection.step, (step_spec hs).1, hstrand, Option.isSome_none, Bool.false_eq_true,
            if_false, runTask, close, hopen, Bool.not_true, Option.some.injEq] at hs
          subst hs
          exact ⟨fun hnever => absurd hnever Bool.false_ne_true, fun _ => ⟨rfl, hwritten⟩⟩
        · cases hclose
      · cases hclose
  | false =>
    obtain ⟨hempty, hwritten⟩ := h.closed hopen
    have hinv : Inv c := by
      refine ⟨(step_spec hs).1, ?_, ?_, fun _ => hempty⟩
      · exact fun hnever => absurd (hopen.symm.trans hnever) Bool.false_ne_true
      · exact fun hnever => absurd (hopen.symm.trans hnever) Bool.false_ne_true
    obtain ⟨hopen', hwritten'⟩ := hinv.closed_step hopen hs
    refine ⟨fun hnever => absurd (hopen'.symm.trans hnever) Bool.false_ne_true, fun _ => ?_⟩
    exact ⟨closed_queue hopen hempty hs, hwritten' ▸ hwritten⟩

/-- A step that leaves socket, queue, writes and `send` tasks alone. -/
theorem Emits.of_eq (h : c.Emits messages) (hordered : ∀ sent, Ordered c sent → Ordered c' sent)
    (hposted : c'.strand.filterMap Task.message? = c.strand.filterMap Task.message?)
    (hopen : c'.isOpen = c.isOpen) (hqueue : c.isOpen = false → c'.sendQueue = c.sendQueue)
    (hwritten : c'.written = c.written) : c'.Emits messages where
  sends ho := (h.sends (hopen ▸ ho)).of_eq hordered hposted
  closed ho := by
    rw [hopen] at ho
    rw [hqueue ho, hwritten]
    exact h.closed ho

theorem Emits.doRead (h : c.Emits messages) : c.doRead.Emits messages := by
  cases hopen : c.isOpen with
  | true => exact ((h.sends hopen).of_eq (fun sent ho => ho.doRead) (congrArg _ doRead_frame.1)).emits
  | false =>
    have hsame : c.doRead = c := by simp [Connection.doRead, hopen]
    exact hsame.symm ▸ h

theorem Emits.post (h : c.Emits messages) (cmd : Message) : (c.post (.send cmd)).Emits (messages ++ [cmd]) where
  sends ho := (h.sends ho).post cmd
  closed ho := by
    obtain ⟨hempty, hwritten⟩ := h.closed ho
    exact ⟨hempty, by rw [List.map_append]; exact hwritten.trans (List.prefix_append _ _)⟩

end Connection

namespace Session

/-- The reads of a connection on one that has sent none of these messages yet. -/
def unsent (c : Connection) (messages : List Message) : Connection where
  reading := c.reading
  strand := List.replicate (c.strand.count .read) .read ++ messages.map .send

theorem unsent_reads (c : Connection) (messages : List Message) : (unsent c messages).reads = c.reads := by
  have hnone : (messages.map Task.send).count .read = 0 := List.count_eq_zero.2 (by simp)
  simp [unsent, Connection.reads, List.count_append, hnone]

theorem unsent_sends (c : Connection) (messages : List Message) : (unsent c messages).Sends messages := by
  have hpending : (unsent c messages).pending = 0 := by
    simp [unsent, Connection.pending, List.count_append, List.count_eq_zero]
  have hinv : (unsent c messages).Inv := by
    refine ⟨rfl, fun _ => by omega, fun _ h => by omega, fun h => ?_⟩
    exact absurd h.symm Bool.false_ne_true
  refine ⟨[], [], ⟨hinv, rfl, rfl⟩, ?_, rfl⟩
  have hreads : (List.replicate (c.strand.count .read) Task.read).filterMap Task.message? = [] := by
    simp [List.filterMap_replicate, Task.message?]
  rw [unsent, List.filterMap_append, hreads, List.filterMap_map]
  simp [Task.message?, Function.comp_def]

/-- What an orderly session has read, dispatched and replied does not depend on its connection but for the reads. -/
theorem Orderly.conn {s : Session} (h : s.Orderly) {conn : Connection} (hreads : conn.reads ≤ s.conn.reads) :
    Orderly { s with conn := unsent conn (s.replies.map .getResponse) } where
  sends := unsent_sends conn _
  single := by
    have hsingle := h.single
    rw [unsent_reads]
    dsimp only
    omega
  answered := h.answered
  parsed := by
    obtain ⟨rest, htaken, hrests⟩ := h.parsed
    refine ⟨rest, htaken, fun hpos => hrests.waiting ?_, hrests.handled⟩
    rw [unsent_reads] at hpos
    exact Nat.lt_of_lt_of_le hpos hreads

/-- A session whose connection may have been closed: it is orderly but for what it sends. -/
structure Regular (s : Session) : Prop where
  orderly : Orderly { s with conn := unsent s.conn (s.replies.map .getResponse) }
  emits : s.conn.Emits (s.replies.map .getResponse)

theorem regular_start (world : World) : (start world).Regular where
  orderly := (orderly_start world).conn (Nat.le_refl _)
  emits := (orderly_start world).sends.emits

theorem Regular.inOrder {s : Session} (h : s.Regular) : s.InOrder := by
  obtain ⟨rest, htaken, -⟩ := h.orderly.parsed
  refine ⟨htaken.dispatched, ?_, h.emits.written⟩
  exact h.orderly.answered ▸ List.prefix_append _ _

/-- What keeps a session in order does not depend on the store. -/
theorem Regular.world {s : Session} (h : s.Regular) (world : World) : Regular { s with world } := by
  obtain ⟨rest, htaken, hrests⟩ := h.orderly.parsed
  have horderly := h.orderly
  exact ⟨⟨horderly.sends, horderly.single, horderly.answered, rest, htaken, hrests.waiting, hrests.handled⟩,
    h.emits⟩

theorem Regular.step {s s' : Session} {action : Action} (h : s.Regular) (hs : s.step action = some s') :
    s'.Regular := by
  have hreads : (unsent s.conn (s.replies.map .getResponse)).reads = s.conn.reads := unsent_reads _ _
  cases step_spec hs with
  | strand hout hconn =>
    exact ⟨h.orderly.conn (hreads.symm ▸ Connection.step_reads hout hconn), h.emits.step hout hconn⟩
  | @receive chunk hroom hreading =>
    refine ⟨(h.orderly.receive hroom hreading).conn ?_, ?_⟩
    · simp only [unsent, Connection.reads] at hreads ⊢
      omega
    · exact h.emits.of_eq (fun sent ho => ho.of_eq ho.inv.readOver rfl rfl rfl) rfl rfl (fun _ => rfl) rfl
  | @stop i n offset hi hstop =>
    have hnext := h.orderly.stop hi
    rw [carryOver_conn] at hnext
    obtain ⟨-, -, hreplies⟩ := s.carryOver_frame n offset
    have hopened : (unsent s.conn (s.replies.map .getResponse)).doRead.reads = s.conn.reads + 1 := by
      rw [Connection.doRead_frame.2, hreads]
      rfl
    refine ⟨hnext.conn ?_, ?_⟩
    · dsimp only
      rw [hopened, Connection.doRead_frame.2]
      exact Nat.add_le_add_left (by split <;> omega) _
    · dsimp only
      rw [hreplies]
      exact h.emits.doRead
  | fail hi =>
    refine ⟨(h.orderly.fail hi).conn ?_, ?_⟩
    · rw [Connection.reads_post (by simp), Connection.reads_post (by simp), hreads]
    · exact h.emits.of_eq (fun sent ho => ho.post (by simp)) (Connection.filterMap_post_of_none rfl) rfl
        (fun _ => rfl) rfl
  | dispatch hi hframe => exact ⟨h.orderly.dispatch hi hframe, h.emits⟩
  | reply hi htag =>
    refine ⟨(h.orderly.reply hi htag).conn ?_, ?_⟩
    · dsimp only [send]
      rw [Connection.reads_post (by simp), Connection.reads_post (by simp), hreads]
    · dsimp only [send]
      rw [List.map_append]
      exact h.emits.post _
  | setDone hi => exact ⟨h.orderly.back hi h.orderly.sends rfl (List.append_nil _).symm, h.emits⟩
  | store => exact h.world _

end Session

/-! ## The calls behind the replies -/

/-- What the command asks of the store. -/
def ServerCall.op : ServerCall → MapOp
  | .get cmd => .get cmd.key
  | .set cmd => .set cmd.key cmd.value

/-- What a call may be later: it stays the call of its operation, and does not change any more once it has returned. -/
def Call.Follows (call call' : Call) : Prop :=
  call'.op = call.op ∧ (call.result?.isSome = true → call' = call)

theorem Call.Follows.refl (call : Call) : call.Follows call := ⟨rfl, fun _ => rfl⟩

theorem Call.result?_of_response? {cmd : GetCommand} {call : Call} {response : GetCommandResponse}
    (h : call.response? cmd = some response) : call.result?.isSome = true := by
  unfold response? at h
  split at h
  · rfl
  · rfl
  · cases h

theorem Call.step_follows {s s' : Store} {call call' : Call} (h : call.step s = some (s', call')) :
    call.Follows call' := by
  cases call with
  | set c =>
    obtain ⟨⟨s, c'⟩, hc, heq⟩ := Option.map_eq_some_iff.1 h
    cases heq
    have hstep := SetCall.step_spec hc
    refine ⟨by rw [op, op, hstep.key, hstep.given], fun hresult => ?_⟩
    obtain ⟨key, given, value, pc⟩ := c
    cases pc with
    | done => cases hc
    | _ => cases hresult
  | get c =>
    obtain ⟨⟨s, c'⟩, hc, heq⟩ := Option.map_eq_some_iff.1 h
    cases heq
    refine ⟨by rw [op, op, (GetCall.step_spec hc).key], fun hresult => ?_⟩
    obtain ⟨key, pc⟩ := c
    cases pc with
    | absent => cases hc
    | answered e answer => cases hc
    | _ => cases hresult

theorem World.step_follows {w w' : World} {a : ConfigServer.Action} (hs : w.step a = some w') {j : Nat}
    {call : Call} (hj : w.calls[j]? = some call) : ∃ call', w'.calls[j]? = some call' ∧ call.Follows call' := by
  by_cases ha : ∃ i, a = .step i
  · obtain ⟨i, rfl⟩ := ha
    obtain ⟨call₀, s, call₁, hi, hcall, rfl⟩ := step_call hs
    by_cases hij : i = j
    · subst hij
      cases hi.symm.trans hj
      exact ⟨call₁, List.getElem?_set_self (List.getElem?_eq_some_iff.1 hi).1, Call.step_follows hcall⟩
    · exact ⟨call, (List.getElem?_set_ne hij).trans hj, .refl call⟩
  · have hspawn (d : Call) : (w.calls ++ [d])[j]? = some call :=
      (List.getElem?_append_left (List.getElem?_eq_some_iff.1 hj).1).trans hj
    refine ⟨call, ?_, .refl call⟩
    cases step_spec hs with
    | callSet hkey hvalue => exact hspawn _
    | callGet => exact hspawn _
    | set hi hstep => exact absurd ⟨_, rfl⟩ ha
    | get hi hstep => exact absurd ⟨_, rfl⟩ ha
    | flush hflush =>
      obtain ⟨dirty, file, flush, rfl⟩ := hflush.frame
      exact hj

namespace Session

/-- Each handler in the dispatcher waits for a call made for its command, and
each reply says what a call made for a GET has come to. -/
structure Backed (s : Session) : Prop where
  waits {n offset j : Nat} {command : ServerCall} : ⟨n, offset, some (command, j)⟩ ∈ s.handlers →
    command ∈ s.calls ∧ ∃ call : Call, s.world.calls[j]? = some call ∧ call.op = command.op
  replies {response : GetCommandResponse} : response ∈ s.replies → ∃ cmd, .get cmd ∈ s.calls ∧
    ∃ (j : Nat) (call : Call), s.world.calls[j]? = some call ∧ call.op = .get cmd.key ∧
      call.response? cmd = some response

theorem backed_start (world : World) : (start world).Backed where
  waits h := absurd h List.not_mem_nil
  replies h := absurd h List.not_mem_nil

/-- Whoever works on the store, the calls go on. -/
theorem Backed.store {s : Session} (h : s.Backed) {world : World}
    (hfollows : ∀ {j : Nat} {call : Call}, s.world.calls[j]? = some call →
      ∃ call', world.calls[j]? = some call' ∧ call.Follows call') :
    Backed { s with world } where
  waits hi := by
    obtain ⟨hcommand, call, hj, hop⟩ := h.waits hi
    obtain ⟨call', hj', hfollow⟩ := hfollows hj
    exact ⟨hcommand, call', hj', hfollow.1.trans hop⟩
  replies hmem := by
    obtain ⟨cmd, hcmd, j, call, hj, hop, hresponse⟩ := h.replies hmem
    obtain ⟨call', hj', hfollow⟩ := hfollows hj
    obtain rfl := hfollow.2 (Call.result?_of_response? hresponse)
    exact ⟨cmd, hcmd, j, call', hj', hop, hresponse⟩

/-- Nothing is dispatched and nothing replied. -/
theorem Backed.frame {s s' : Session} (h : s.Backed)
    (hhandlers : ∀ d ∈ s'.handlers, d ∈ s.handlers ∨ d.inside = none) (hworld : s'.world = s.world)
    (hcalls : s'.calls = s.calls) (hreplies : s'.replies = s.replies) : s'.Backed where
  waits hi := by
    rw [hcalls, hworld]
    exact h.waits ((hhandlers _ hi).resolve_right (Option.some_ne_none _))
  replies hmem := by
    rw [hcalls, hworld]
    exact h.replies (hreplies ▸ hmem)

theorem Backed.dispatch {s : Session} (h : s.Backed) {n offset i : Nat} {command : ServerCall} {world : World}
    (hworld : s.world.step command.action = some world) :
    Backed { s with
      handlers := s.handlers.set i ⟨n, offset, some (command, s.world.calls.length)⟩
      world
      calls := s.calls ++ [command] } := by
  have hnext := h.store fun hj => World.step_follows hworld hj
  have hcall : ∃ call : Call, world.calls[s.world.calls.length]? = some call ∧ call.op = command.op := by
    cases command with
    | get cmd =>
      cases hworld
      exact ⟨_, List.getElem?_concat_length, rfl⟩
    | set cmd =>
      simp only [ServerCall.action, World.step] at hworld
      split at hworld
      · cases hworld
        exact ⟨_, List.getElem?_concat_length, rfl⟩
      · cases hworld
  refine ⟨fun {n' offset' j command'} hi => ?_, fun hmem => ?_⟩
  · rcases List.mem_or_eq_of_mem_set hi with hi | heq
    · obtain ⟨hcommand, hbacked⟩ := hnext.waits hi
      exact ⟨List.mem_append_left _ hcommand, hbacked⟩
    · cases heq
      exact ⟨List.mem_append_right _ (List.mem_singleton_self _), hcall⟩
  · obtain ⟨cmd, hcmd, hbacked⟩ := hnext.replies hmem
    exact ⟨cmd, List.mem_append_left _ hcmd, hbacked⟩

theorem Backed.reply {s : Session} (h : s.Backed) {cmd : GetCommand} {response : GetCommandResponse} {j : Nat}
    {call : Call} (hcmd : .get cmd ∈ s.calls) (hj : s.world.calls[j]? = some call) (hop : call.op = .get cmd.key)
    (hresponse : call.response? cmd = some response) : (s.send response).Backed where
  waits := h.waits
  replies {response'} hmem := by
    rcases List.mem_append.1 hmem with hmem | hmem
    · exact h.replies hmem
    · cases List.mem_singleton.1 hmem
      exact ⟨cmd, hcmd, j, call, hj, hop, hresponse⟩

theorem Backed.step {s s' : Session} {action : Action} (h : s.Backed) (hs : s.step action = some s') :
    s'.Backed := by
  have hidle {n offset i : Nat} (d : Handler) (hd : d ∈ s.handlers.set i { n, offset }) :
      d ∈ s.handlers ∨ d.inside = none :=
    (List.mem_or_eq_of_mem_set hd).imp_right fun heq => by rw [heq]
  have hgone {i : Nat} (d : Handler) (hd : d ∈ s.handlers.eraseIdx i) : d ∈ s.handlers ∨ d.inside = none :=
    .inl (List.mem_of_mem_eraseIdx hd)
  cases action with
  | strand event =>
    cases step_spec hs with
    | strand hout hconn => exact ⟨h.waits, h.replies⟩
  | receive chunk =>
    cases step_spec hs with
    | receive hroom hreading =>
      refine h.frame (fun d hd => ?_) rfl rfl rfl
      exact (List.mem_append.1 hd).imp_right fun hd => by rw [List.mem_singleton.1 hd]
  | iterate i =>
    obtain ⟨n, offset, hi, ⟨hstop, rfl⟩ | ⟨⟨e, hfail⟩, rfl⟩ | ⟨call, offset', world, hframe, hworld, rfl⟩⟩ :=
      iterate_cases (step_iterate hs)
    · obtain ⟨hworld, hcalls, hreplies⟩ := s.carryOver_frame n offset
      exact h.frame hgone hworld hcalls hreplies
    · exact h.frame hgone rfl rfl rfl
    · exact h.dispatch hworld
  | respond i =>
    obtain ⟨n, offset, j, ⟨cmd, call, response, hi, hj, hresponse, rfl⟩ | ⟨cmd, c, hi, hj, hdone, rfl⟩⟩ :=
      respond_cases (step_respond hs)
    · obtain ⟨hcmd, call', hj', hop⟩ := h.waits (List.mem_of_getElem? hi)
      cases hj.symm.trans hj'
      have hback : Backed { s with handlers := s.handlers.set i { n, offset } } := h.frame hidle rfl rfl rfl
      exact hback.reply hcmd hj hop hresponse
    · exact h.frame hidle rfl rfl rfl
  | store action =>
    obtain ⟨world, hworld, rfl⟩ := Option.map_eq_some_iff.1 (step_store hs)
    exact h.store fun hj => World.step_follows hworld hj

end Session

end ConfigServer
