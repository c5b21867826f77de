/-
What the clients of a server see is linearizable, in every run without a harmful
retry: from when a session dispatches a command to when the dispatcher is done
with it, there is a moment at which it could have been performed alone.

A session waits for a command before it dispatches the next one, so the order is
also that in which each client has sent its own.
-/
import ConfigServer.ServerFacts

namespace ConfigServer

open Linearization Receiver Runs

/-- The value of the reply, if one is sent. -/
def Answer.shown : Answer → Option Bytes
  | .done => none
  | .value found => some (found.getD ServerDispatcher.notFound)

theorem Call.response?_shown {cmd : GetCommand} {call : Call} {response : GetCommandResponse}
    (h : call.response? cmd = some response) :
    ∃ answer, call.result? = some answer ∧ answer.shown = some response.value := by
  unfold response? at h
  split at h
  · cases h
    exact ⟨_, rfl, rfl⟩
  · cases h
    exact ⟨_, rfl, rfl⟩
  · cases h

namespace Session

/-! ## What a session does to the store -/

/-- The command in the dispatcher, with the call that is made for it. -/
def inside (s : Session) : List (ServerCall × Nat) := s.handlers.filterMap Handler.inside

/-- What a step of session `i` shows: its next command is dispatched, or the dispatcher is done with it. -/
def events (s : Session) (i : Nat) : Action → List (Event (Nat × Nat) MapOp Answer)
  | .iterate j =>
    match s.handlers[j]? with
    | some ⟨n, offset, none⟩ =>
      match frameStep readServer s.buffer n offset with
      | .advance call _ => [.call (i, s.calls.length) call.op]
      | _ => []
    | _ => []
  | .respond j =>
    match s.handlers[j]? with
    | some ⟨_, _, some (_, call)⟩ =>
      (s.world.calls[call]?.bind Call.result?).toList.map (.ret (i, s.calls.length - 1))
    | _ => []
  | _ => []

/-- A step of the session's own: it dispatches a command, it is done with one, or nothing changes there. -/
inductive Serves (s : Session) (a : Action) (s' : Session) : Prop
  | quiet (hinside : s'.inside = s.inside) (hcalls : s'.calls = s.calls) (hreplies : s'.replies = s.replies)
    (hworld : s'.world = s.world) (hevents : ∀ i, s.events i a = [])
  | dispatch {command : ServerCall} (hidle : s.inside = [])
    (hinside : s'.inside = [(command, s.world.calls.length)]) (hcalls : s'.calls = s.calls ++ [command])
    (hreplies : s'.replies = s.replies) (hworld : s.world.step command.action = some s'.world)
    (hevents : ∀ i, s.events i a = [.call (i, s.calls.length) command.op])
  | done {command : ServerCall} {j : Nat} {call : Call} {answer : Answer}
    (hinside : s.inside = [(command, j)]) (hidle : s'.inside = []) (hcalls : s'.calls = s.calls)
    (hreplies : s'.replies = s.replies ++ command.gets.filterMap fun cmd => call.response? cmd)
    (hshown : s'.replies.map (·.value) = s.replies.map (·.value) ++ answer.shown.toList)
    (hworld : s'.world = s.world) (hj : s.world.calls[j]? = some call) (hresult : call.result? = some answer)
    (hevents : ∀ i, s.events i a = [.ret (i, s.calls.length - 1) answer])

theorem handlers_eq {s : Session} (hone : s.handlers.length ≤ 1) {i : Nat} {handler : Handler}
    (hi : s.handlers[i]? = some handler) : s.handlers = [handler] ∧ i = 0 := by
  have hlt := (List.getElem?_eq_some_iff.1 hi).1
  have hlength : s.handlers.length = 1 := by omega
  obtain ⟨only, honly⟩ := List.length_eq_one_iff.1 hlength
  have hzero : i = 0 := by omega
  subst hzero
  rw [honly, List.getElem?_cons_zero, Option.some.injEq] at hi
  exact ⟨by rw [honly, hi], rfl⟩

theorem step_serves {s s' : Session} {a : Action} (hone : s.handlers.length ≤ 1) (hown : a.isOwn = true)
    (hs : s.step a = some s') : s.Serves a s' := by
  cases a with
  | strand event =>
    cases step_spec hs with
    | strand hout hconn => exact .quiet rfl rfl rfl rfl fun _ => rfl
  | receive chunk =>
    cases step_spec hs with
    | receive hroom hreading =>
      refine .quiet ?_ rfl rfl rfl fun _ => rfl
      simp [inside, List.filterMap_append]
  | iterate j =>
    obtain ⟨n, offset, hi, ⟨hstop, rfl⟩ | ⟨⟨e, hfail⟩, rfl⟩ | ⟨call, offset', world, hframe, hworld, rfl⟩⟩ :=
      iterate_cases (step_iterate hs)
    · obtain ⟨honly, rfl⟩ := handlers_eq hone hi
      obtain ⟨hworld, hcalls, hreplies⟩ := s.carryOver_frame n offset
      exact .quiet (by simp [inside, honly]) hcalls hreplies hworld fun i => by simp [events, hi, hstop]
    · obtain ⟨honly, rfl⟩ := handlers_eq hone hi
      exact .quiet (by simp [inside, honly]) rfl rfl rfl fun i => by simp [events, hi, hfail]
    · obtain ⟨honly, rfl⟩ := handlers_eq hone hi
      exact .dispatch (by simp [inside, honly]) (by simp [inside, honly]) rfl rfl hworld
        fun i => by simp [events, hi, hframe]
  | respond k =>
    obtain ⟨n, offset, j, ⟨cmd, call, response, hi, hj, hresponse, rfl⟩ | ⟨cmd, c, hi, hj, hdone, rfl⟩⟩ :=
      respond_cases (step_respond hs)
    · obtain ⟨honly, rfl⟩ := handlers_eq hone hi
      obtain ⟨answer, hresult, hshown⟩ := Call.response?_shown hresponse
      have hinside : s.inside = [(.get cmd, j)] := by simp [inside, honly]
      exact .done hinside (by simp [inside, honly, send]) rfl (by simp [send, ServerCall.gets, hresponse])
        (by simp [send, hshown]) rfl hj hresult fun i => by simp [events, hi, hj, hresult]
    · obtain ⟨honly, rfl⟩ := handlers_eq hone hi
      obtain ⟨key, given, value, pc⟩ := c
      cases hdone
      have hinside : s.inside = [(.set cmd, j)] := by simp [inside, honly]
      exact .done hinside (by simp [inside, honly]) rfl (by simp [ServerCall.gets]) (by simp [Answer.shown])
        rfl hj rfl fun i => by simp [events, hi, hj, Call.result?]
  | store action => cases hown

end Session

namespace Server

/-! ## What the clients see -/

def events (srv : Server) : Action → List (Event (Nat × Nat) MapOp Answer)
  | .session i action => (srv.sessions[i]?.map fun s => (srv.view s.session).events i action).getD []
  | _ => []

/-- The step is no harmful retry. -/
def RetryHarmless (srv : Server) : Action → Prop
  | .call j => srv.world.RetryHarmless (.step j)
  | _ => True

instance (srv : Server) : (a : Action) → Decidable (srv.RetryHarmless a)
  | .call j => inferInstanceAs (Decidable (srv.world.RetryHarmless (.step j)))
  | .accept => instDecidableTrue
  | .acceptFailed => instDecidableTrue
  | .session _ _ => instDecidableTrue
  | .saveExpired => instDecidableTrue
  | .flush _ => instDecidableTrue
  | .statExpired => instDecidableTrue
  | .dump => instDecidableTrue

/-- Something of session `i`; before it is made, what it will have at its start. -/
def own {α : Type} (srv : Server) (f : Session → α) (d : α) (i : Nat) : α :=
  (srv.sessions[i]?.map fun s => f s.session).getD d

/-- What session `i` has in the dispatcher. -/
def inside (srv : Server) : Nat → List (ServerCall × Nat) := srv.own Session.inside []

/-- How many commands session `i` has dispatched. -/
def count (srv : Server) : Nat → Nat := srv.own (fun s => s.calls.length) 0

/-- The values that session `i` has replied. -/
def replied (srv : Server) : Nat → List Bytes := srv.own (fun s => s.replies.map (·.value)) []

end Server

/-! ## The order of the commands -/

section

variable {s₀ s : Store} {w : World} {inside : Nat → List (ServerCall × Nat)} {count : Nat → Nat}
  {h : List (Event (Nat × Nat) MapOp Answer)} {ps : List (Point (Nat × Nat) MapOp Answer)} {i j : Nat}
  {command : ServerCall} {call call' : Call}

/-- Call `j` was made for the command that is `id` in the history. -/
structure Waits (w : World) (h : List (Event (Nat × Nat) MapOp Answer))
    (ps : List (Point (Nat × Nat) MapOp Answer)) (id : Nat × Nat) (j : Nat) (call : Call) : Prop where
  made : w.calls[j]? = some call
  called : .call id call.op ∈ h
  performed {answer : Answer} : call.effect? = some answer → ⟨id, call.op, answer⟩ ∈ ps
  pending : call.effect? = none → ∀ p ∈ ps, p.id ≠ id

/-- The history `h` of sessions that have `inside` in the dispatcher, and have dispatched `count`
commands each, is explained by the points `ps`. Command `k` of session `i` is `(i, k)`. -/
structure Explained (s₀ : Store) (w : World) (inside : Nat → List (ServerCall × Nat)) (count : Nat → Nat)
    (h : List (Event (Nat × Nat) MapOp Answer)) (ps : List (Point (Nat × Nat) MapOp Answer)) : Prop where
  coherent : w.Coherent
  args : ∀ call ∈ w.calls, call.ArgOk w.store
  linearizes : Linearizes MapOp.perform s₀.content h ps w.store.content
  called {id : Nat × Nat} {op : MapOp} : .call id op ∈ h → id.2 < count id.1
  waits {i j : Nat} {command : ServerCall} : (command, j) ∈ inside i →
    ∃ call, Waits w h ps (i, count i - 1) j call
  alone {i : Nat} {p p' : ServerCall × Nat} : p ∈ inside i → p' ∈ inside i → p = p'
  /-- A call that has not taken effect is one that a session waits for, and no other does. -/
  awaited {j : Nat} {call : Call} : w.calls[j]? = some call → call.effect? = none →
    ∃ i command, (command, j) ∈ inside i
  apart {i i' j : Nat} {command command' : ServerCall} : (command, j) ∈ inside i → (command', j) ∈ inside i' →
    i = i'

theorem explained_start (hs₀ : s₀.Wf) : Explained s₀ { store := s₀ } (fun _ => []) (fun _ => 0) [] [] where
  coherent := World.coherent_start hs₀
  args _ hmem := absurd hmem List.not_mem_nil
  linearizes := linearizes_nil _
  called hmem := absurd hmem List.not_mem_nil
  waits hmem := absurd hmem List.not_mem_nil
  alone hmem := absurd hmem List.not_mem_nil
  awaited hj := by cases hj
  apart hmem := absurd hmem List.not_mem_nil

/-- The calls and the content stay as they were. -/
theorem Explained.frame {w' : World} (hex : Explained s₀ w inside count h ps) (hcoherent : w'.Coherent)
    (hargs : ∀ call ∈ w'.calls, call.ArgOk w'.store) (hcalls : w'.calls = w.calls)
    (hcontent : w'.store.content = w.store.content) : Explained s₀ w' inside count h ps where
  coherent := hcoherent
  args := hargs
  linearizes := hcontent ▸ hex.linearizes
  called := hex.called
  waits hmem := (hex.waits hmem).imp fun _ hw => ⟨hcalls ▸ hw.made, hw.called, hw.performed, hw.pending⟩
  alone := hex.alone
  awaited hj := hex.awaited (hcalls ▸ hj)
  apart := hex.apart

/-- Session `i`, which waits for nothing, dispatches a command. -/
theorem Explained.dispatch (hex : Explained s₀ w inside count h ps) (hidle : inside i = [])
    (hcoherent : World.Coherent { w with calls := w.calls ++ [call] }) (harg : call.ArgOk w.store)
    (heffect : call.effect? = none) :
    Explained s₀ { w with calls := w.calls ++ [call] } (Function.update inside i [(command, w.calls.length)])
      (Function.update count i (count i + 1)) (h ++ [.call (i, count i) call.op]) ps where
  coherent := hcoherent
  args d hd := by
    rcases List.mem_append.1 hd with hd | hd
    · exact hex.args d hd
    · exact List.mem_singleton.1 hd ▸ harg
  linearizes := hex.linearizes.call _ fun op' hmem => Nat.lt_irrefl _ (hex.called hmem)
  called {id op} hmem := by
    rcases List.mem_append.1 hmem with hmem | hmem
    · have hlt := hex.called hmem
      by_cases hid : id.1 = i
      · rw [hid, Function.update_self]
        exact Nat.lt_succ_of_lt (hid ▸ hlt)
      · rwa [Function.update_of_ne hid]
    · cases List.mem_singleton.1 hmem
      simp
  waits {k j command'} hmem := by
    by_cases hk : k = i
    · subst hk
      rw [Function.update_self] at hmem ⊢
      cases List.mem_singleton.1 hmem
      refine ⟨call, List.getElem?_concat_length, ?_, fun hsome => ?_, fun _ p hp hid => ?_⟩
      · exact List.mem_append_right _ (List.mem_singleton_self _)
      · rw [heffect] at hsome
        cases hsome
      · have hlt := hex.called (hex.linearizes.called hp)
        rw [hid] at hlt
        exact Nat.lt_irrefl _ hlt
    · rw [Function.update_of_ne hk] at hmem ⊢
      obtain ⟨d, hw⟩ := hex.waits hmem
      refine ⟨d, ?_, List.mem_append_left _ hw.called, hw.performed, hw.pending⟩
      exact (List.getElem?_append_left (List.getElem?_eq_some_iff.1 hw.made).1).trans hw.made
  alone {k p p'} hmem hmem' := by
    by_cases hk : k = i
    · subst hk
      rw [Function.update_self] at hmem hmem'
      rw [List.mem_singleton.1 hmem, List.mem_singleton.1 hmem']
    · rw [Function.update_of_ne hk] at hmem hmem'
      exact hex.alone hmem hmem'
  awaited {j d} hj hnone := by
    rw [List.getElem?_append] at hj
    split at hj
    · obtain ⟨k, command', hmem⟩ := hex.awaited hj hnone
      have hk : k ≠ i := by
        rintro rfl
        rw [hidle] at hmem
        cases hmem
      exact ⟨k, command', by rwa [Function.update_of_ne hk]⟩
    · next hge =>
      have hlt := (List.getElem?_eq_some_iff.1 hj).1
      simp only [List.length_singleton] at hlt
      have hlast : j = w.calls.length := by omega
      exact ⟨i, command, by rw [Function.update_self, hlast]; exact List.mem_singleton_self _⟩
  apart {k k' j command₁ command₂} hmem hmem' := by
    have hold {k : Nat} {c : ServerCall} (hmem : (c, w.calls.length) ∈ inside k) : False := by
      obtain ⟨d, hw⟩ := hex.waits hmem
      exact Nat.lt_irrefl _ (List.getElem?_eq_some_iff.1 hw.made).1
    by_cases hk : k = i <;> by_cases hk' : k' = i
    · rw [hk, hk']
    · subst hk
      rw [Function.update_self] at hmem
      rw [Function.update_of_ne hk'] at hmem'
      cases List.mem_singleton.1 hmem
      exact (hold hmem').elim
    · subst hk'
      rw [Function.update_self] at hmem'
      rw [Function.update_of_ne hk] at hmem
      cases List.mem_singleton.1 hmem'
      exact (hold hmem).elim
    · rw [Function.update_of_ne hk] at hmem
      rw [Function.update_of_ne hk'] at hmem'
      exact hex.apart hmem hmem'

/-- The call that session `i` waits for has returned. -/
theorem Explained.done (hex : Explained s₀ w inside count h ps) (hinside : inside i = [(command, j)])
    (hj : w.calls[j]? = some call) {answer : Answer} (hresult : call.result? = some answer) :
    Explained s₀ w (Function.update inside i []) count (h ++ [.ret (i, count i - 1) answer]) ps := by
  obtain ⟨call₀, hw⟩ := hex.waits (hinside ▸ List.mem_singleton_self _)
  cases hj.symm.trans hw.made
  have heffect := Call.effect?_of_result? hresult
  have hsub {k : Nat} {p : ServerCall × Nat} (hmem : p ∈ Function.update inside i [] k) : p ∈ inside k := by
    by_cases hk : k = i
    · subst hk
      rw [Function.update_self] at hmem
      cases hmem
    · rwa [Function.update_of_ne hk] at hmem
  refine ⟨hex.coherent, hex.args, hex.linearizes.ret (hw.performed heffect), fun hmem => ?_, fun hmem => ?_,
    fun hmem hmem' => hex.alone (hsub hmem) (hsub hmem'), fun {j' d} hj' hnone => ?_,
    fun hmem hmem' => hex.apart (hsub hmem) (hsub hmem')⟩
  · exact hex.called (by simpa using hmem)
  · obtain ⟨d, hd⟩ := hex.waits (hsub hmem)
    exact ⟨d, hd.made, List.mem_append_left _ hd.called, hd.performed, hd.pending⟩
  · obtain ⟨k, command', hmem⟩ := hex.awaited hj' hnone
    refine ⟨k, command', ?_⟩
    by_cases hk : k = i
    · subst hk
      rw [hinside] at hmem
      cases List.mem_singleton.1 hmem
      cases hj.symm.trans hj'
      exact absurd (heffect.symm.trans hnone) (Option.some_ne_none _)
    · rwa [Function.update_of_ne hk]

/-- A call takes a step. If it takes effect, its command is put at the end of the order. -/
theorem Explained.effect (hex : Explained s₀ w inside count h ps) (hj : w.calls[j]? = some call)
    (hop : call'.op = call.op)
    (hcoherent : World.Coherent { w with store := s, calls := w.calls.set j call' })
    (hargs : ∀ d ∈ w.calls.set j call', d.ArgOk s)
    (heffect : Call.StepEffect call call' w.store.content s.content) :
    ∃ ps', Explained s₀ { w with store := s, calls := w.calls.set j call' } inside count h ps' := by
  have hself : (w.calls.set j call')[j]? = some call' :=
    List.getElem?_set_self (List.getElem?_eq_some_iff.1 hj).1
  have hother {j' : Nat} (hj' : j' ≠ j) : (w.calls.set j call')[j']? = w.calls[j']? :=
    List.getElem?_set_ne hj'.symm
  -- The calls that have not taken effect are among those that had not.
  have hawaited (hnone : call'.effect? = none → call.effect? = none) {j' : Nat} {d : Call}
      (hj' : (w.calls.set j call')[j']? = some d) (hd : d.effect? = none) :
      ∃ i command, (command, j') ∈ inside i := by
    by_cases hjj : j' = j
    · subst hjj
      cases hself.symm.trans hj'
      exact hex.awaited hj (hnone hd)
    · exact hex.awaited ((hother hjj).symm.trans hj') hd
  rcases heffect with ⟨hsame, hcontent⟩ | ⟨hbefore, hafter, hcontent⟩
  · refine ⟨ps, hcoherent, hargs, hcontent ▸ hex.linearizes, hex.called, fun {k j' command'} hmem => ?_,
      hex.alone, hawaited fun hd => hsame ▸ hd, hex.apart⟩
    obtain ⟨d, hw⟩ := hex.waits hmem
    by_cases hjj : j' = j
    · subst hjj
      cases hj.symm.trans hw.made
      exact ⟨call', hself, hop ▸ hw.called, fun hd => hop ▸ hw.performed (hsame ▸ hd),
        fun hd => hw.pending (hsame ▸ hd)⟩
    · exact ⟨d, (hother hjj).trans hw.made, hw.called, hw.performed, hw.pending⟩
  · obtain ⟨i, command, hinside⟩ := hex.awaited hj hbefore
    obtain ⟨d, hw⟩ := hex.waits hinside
    cases hj.symm.trans hw.made
    have hpoint := hex.linearizes.point
      (p := ⟨(i, count i - 1), call.op, (call.op.perform w.store.content).2⟩) hw.called (hw.pending hbefore)
      rfl
    refine ⟨_, hcoherent, hargs, hcontent ▸ hpoint, hex.called, fun {k j' command'} hmem => ?_, hex.alone,
      hawaited fun hd => absurd (hafter.symm.trans hd) (Option.some_ne_none _), hex.apart⟩
    obtain ⟨d, hd⟩ := hex.waits hmem
    by_cases hjj : j' = j
    · subst hjj
      cases hj.symm.trans hd.made
      obtain rfl := hex.apart hmem hinside
      refine ⟨call', hself, hop ▸ hd.called, fun hanswer => ?_, fun hnone => ?_⟩
      · cases hafter.symm.trans hanswer
        rw [hop]
        exact List.mem_append_right _ (List.mem_singleton_self _)
      · exact absurd (hafter.symm.trans hnone) (Option.some_ne_none _)
    · refine ⟨d, (hother hjj).trans hd.made, hd.called, fun hanswer => ?_, fun hnone q hq => ?_⟩
      · exact List.mem_append_left _ (hd.performed hanswer)
      · rcases List.mem_append.1 hq with hq | hq
        · exact hd.pending hnone q hq
        · -- The session that waits for call `j` waits for no other.
          rw [List.mem_singleton.1 hq]
          intro hid
          obtain rfl : i = k := congrArg Prod.fst hid
          cases hex.alone hmem hinside
          exact hjj rfl

end

/-! ## Runs -/

namespace Server

variable {s₀ : Store} {srv srv' : Server} {h : List (Event (Nat × Nat) MapOp Answer)}
  {ps : List (Point (Nat × Nat) MapOp Answer)} {i : Nat} {s s' : Owned}

theorem own_eq {α : Type} {f : Session → α} {d : α} (hi : srv.sessions[i]? = some s) :
    srv.own f d i = f s.session := by
  rw [own, hi]
  rfl

theorem own_set {α : Type} {f : Session → α} {d : α} (hi : srv.sessions[i]? = some s)
    (reporting : Reporting) (saveTimer statTimer : TimerPc) :
    own ⟨reporting, srv.sessions.set i s', saveTimer, statTimer⟩ f d =
      Function.update (srv.own f d) i (f s'.session) := by
  funext k
  by_cases hk : k = i
  · subst hk
    rw [Function.update_self, own, List.getElem?_set_self (List.getElem?_eq_some_iff.1 hi).1]
    rfl
  · rw [Function.update_of_ne hk, own, List.getElem?_set_ne (Ne.symm hk), own]

theorem own_accept {α : Type} {f : Session → α} {world : World} {d : α} (hf : f (Session.start world) = d)
    (srv : Server) (reporting : Reporting) (saveTimer statTimer : TimerPc) :
    own ⟨reporting, srv.sessions ++ [.start world], saveTimer, statTimer⟩ f d = srv.own f d := by
  funext k
  rw [own, own, List.getElem?_append]
  split
  · rfl
  · next hge =>
    rw [List.getElem?_eq_none (Nat.le_of_not_lt hge)]
    cases hk : k - srv.sessions.length with
    | zero => exact hf
    | succ k => rfl

/-- What a dispatched command asks of the store is called, and takes effect later. -/
theorem calls_dispatch {w w' : World} {command : ServerCall} (hs : w.step command.action = some w') :
    ∃ call : Call, w' = { w with calls := w.calls ++ [call] } ∧ call.op = command.op ∧ call.effect? = none ∧
      call.ArgOk w.store := by
  cases command with
  | get cmd =>
    cases hs
    exact ⟨.get ⟨cmd.key, .entered⟩, rfl, rfl, rfl, trivial⟩
  | set cmd =>
    simp only [ServerCall.action, World.step] at hs
    split at hs
    · cases hs
      exact ⟨.set ⟨cmd.key, cmd.value, cmd.value, .entered⟩, rfl, rfl, rfl, rfl⟩
    · cases hs

/-- The value that session `i` replies. -/
def reply? (i : Nat) : Event (Nat × Nat) MapOp Answer → Option Bytes
  | .call _ _ => none
  | .ret id answer => if id.1 = i then answer.shown else none

/-- The history of a run to `srv` is explained by the points `ps`. -/
structure Explains (s₀ : Store) (srv : Server) (h : List (Event (Nat × Nat) MapOp Answer))
    (ps : List (Point (Nat × Nat) MapOp Answer)) : Prop where
  explained : Explained s₀ srv.world srv.inside srv.count h ps
  replied : srv.replied = fun i => h.filterMap (reply? i)
  regular : ∀ s ∈ srv.sessions, (srv.view s.session).Regular

theorem Explains.session (hex : Explains s₀ srv h ps) {action : Session.Action}
    (hi : srv.sessions[i]? = some s) (hown : action.isOwn = true)
    (hs : (srv.view s.session).step action = some s'.session) :
    Explained s₀ s'.session.world (Function.update srv.inside i s'.session.inside)
        (Function.update srv.count i s'.session.calls.length) (h ++ (srv.view s.session).events i action) ps ∧
      Function.update srv.replied i (s'.session.replies.map (·.value)) =
        fun k => (h ++ (srv.view s.session).events i action).filterMap (reply? k) := by
  have hone : (srv.view s.session).handlers.length ≤ 1 :=
    Nat.le_trans (Nat.le_add_left _ _) (hex.regular s (List.mem_of_getElem? hi)).orderly.single
  have hinside : srv.inside i = (srv.view s.session).inside := own_eq hi
  have hcount : srv.count i = (srv.view s.session).calls.length := own_eq hi
  have hreplied : srv.replied i = (srv.view s.session).replies.map (·.value) := own_eq hi
  have hsame (hcalls : s'.session.calls = (srv.view s.session).calls) :
      Function.update srv.count i s'.session.calls.length = srv.count := by
    rw [hcalls, ← hcount, Function.update_eq_self]
  cases Session.step_serves hone hown hs with
  | quiet hquiet hcalls hreplies hworld hevents =>
    rw [hsame hcalls, hquiet, ← hinside, Function.update_eq_self, hworld, hevents, List.append_nil, hreplies,
      ← hreplied, Function.update_eq_self]
    exact ⟨hex.explained, hex.replied⟩
  | dispatch hidle hdispatched hcalls hreplies hworld hevents =>
    have hcoherent := (World.step_spec hworld).coherent hex.explained.coherent
    obtain ⟨call, heq, hop, heffect, harg⟩ := calls_dispatch hworld
    rw [heq] at hcoherent ⊢
    rw [hdispatched, hcalls, List.length_append, List.length_singleton, hevents, ← hop, ← hcount, hreplies,
      ← hreplied, Function.update_eq_self]
    refine ⟨hex.explained.dispatch (hinside.trans hidle) hcoherent harg heffect, ?_⟩
    rw [hex.replied]
    funext k
    simp [reply?]
  | @done command j call answer hdone hidle hcalls hreplies hshown hworld hj hresult hevents =>
    rw [hsame hcalls, hidle, hworld, hevents, ← hcount, hshown, ← hreplied]
    refine ⟨hex.explained.done (hinside.trans hdone) hj hresult, ?_⟩
    rw [hex.replied]
    funext k
    by_cases hk : k = i
    · subst hk
      cases hanswer : answer.shown <;> simp [reply?, hanswer]
    · rw [Function.update_of_ne hk]
      simp [reply?, Ne.symm hk]

theorem Explains.step {a : Action} (hex : Explains s₀ srv h ps) (hharmless : srv.RetryHarmless a)
    (hs : srv.step a = some srv') : ∃ ps', Explains s₀ srv' (h ++ srv.events a) ps' := by
  obtain ⟨hnofault, hstep⟩ := step_spec hs
  have hregular := hstep.each regular_kept hnofault (Session.regular_start srv.world) hex.regular
  suffices hnext : ∃ ps', Explained s₀ srv'.world srv'.inside srv'.count (h ++ srv.events a) ps' ∧
      srv'.replied = fun i => (h ++ srv.events a).filterMap (reply? i) from
    hnext.imp fun _ hex' => ⟨hex'.1, hex'.2, hregular⟩
  clear hs hregular
  have hcoherent := hex.explained.coherent
  have hquiet (hnone : srv.events a = []) : h ++ srv.events a = h := by rw [hnone, List.append_nil]
  cases hstep with
  | accept =>
    rw [hquiet rfl, inside, own_accept (f := Session.inside) (d := []) rfl, count,
      own_accept (f := fun s => s.calls.length) (d := 0) rfl, Server.replied,
      own_accept (f := fun s => s.replies.map (·.value)) (d := []) rfl]
    exact ⟨ps, hex.explained, hex.replied⟩
  | session hi hown hlive hs hdestroyed =>
    rw [inside, own_set hi, count, own_set hi, Server.replied, own_set hi]
    simp only [events, hi, Option.map_some, Option.getD_some]
    exact ⟨ps, hex.session hi hown hs⟩
  | @call j world hs =>
    obtain ⟨call, s, call', hj, -, rfl, hop, hargs, heffect⟩ :=
      hcoherent.call_effect hex.explained.args hharmless hs
    rw [hquiet rfl]
    obtain ⟨ps', hnext⟩ := hex.explained.effect hj hop ((World.step_spec hs).coherent hcoherent) hargs heffect
    exact ⟨ps', hnext, hex.replied⟩
  | @flush action world hrunning hflush hs =>
    have hworld := World.step_spec hs
    have hcoherent := hworld.coherent hcoherent
    cases hworld with
    | flush hworld =>
      obtain ⟨dirty, file, flush, rfl⟩ := hworld.frame
      rw [hquiet rfl]
      exact ⟨ps, hex.explained.frame hcoherent hex.explained.args rfl rfl, hex.replied⟩
    | _ => cases hflush
  | @dump reporting hrunning hs =>
    obtain ⟨stats, hworld⟩ := dump_world hs
    have hnext := hex.explained.frame (hcoherent.withStats stats) hex.explained.args rfl rfl
    rw [← hworld] at hnext
    rw [hquiet rfl]
    exact ⟨ps, hnext, hex.replied⟩
  | acceptFailed => exact ⟨ps, (hquiet rfl).symm ▸ ⟨hex.explained, hex.replied⟩⟩
  | saveExpired hwaiting => exact ⟨ps, (hquiet rfl).symm ▸ ⟨hex.explained, hex.replied⟩⟩
  | statExpired hwaiting => exact ⟨ps, (hquiet rfl).symm ▸ ⟨hex.explained, hex.replied⟩⟩

/-- **To its clients the server is a map.** In every run without a harmful retry, whatever the clients
send and the timers do, the commands that the sessions dispatch can be put in one order, in which a
command that the dispatcher was done with comes before those dispatched later, such that performed
alone in this order they return what the history says, and leave the content of the store. What
it says that GETs return is what each session has replied, one after the other. -/
theorem run_clientsLinearizable (hs₀ : s₀.Wf) {as : List Action}
    (halong : Along step RetryHarmless (start { store := s₀ }) as)
    (hr : run step (start { store := s₀ }) as = some srv) :
    let history := outputs step events (start { store := s₀ }) as
    (∃ ps, Linearizes MapOp.perform s₀.content history ps srv.world.store.content) ∧
      ∀ i s, srv.sessions[i]? = some s → s.session.replies.map (·.value) = history.filterMap (reply? i) := by
  intro history
  have hstart : ∃ ps, Explains s₀ (start { store := s₀ }) [] ps :=
    ⟨[], explained_start hs₀, rfl, fun s hmem => absurd hmem List.not_mem_nil⟩
  obtain ⟨ps, hex⟩ := halong.history (J := fun srv h => ∃ ps, Explains s₀ srv h ps)
    (fun srv a srv' h ⟨_, hex⟩ hharmless hs => hex.step hharmless hs) hr hstart
  refine ⟨⟨ps, hex.explained.linearizes⟩, fun i s hi => ?_⟩
  exact (own_eq hi).symm.trans (congrFun hex.replied i)

/-- A GET is answered with what a SET of another client has published, before that SET is through. -/
def getSeesSet : List Action :=
  [.accept, .accept, .session 0 (.strand .run), .session 1 (.strand .run),
    .session 1 (.receive [15, 0, 0, 0, 1, 1, 0, 0, 0, 97, 1, 0, 0, 0, 1]),
    .session 0 (.receive [12, 0, 0, 0, 0, 1, 0, 0, 0, 97, 7, 0]), .session 1 (.iterate 0),
    .session 0 (.iterate 0)] ++
  List.replicate 4 (.call 0) ++ List.replicate 8 (.call 1) ++ [.session 0 (.respond 0)]

theorem run_clientsLinearizable_getSeesSet :
    ∃ srv s, run step (start { store := {} }) getSeesSet = some srv ∧ srv.sessions[0]? = some s ∧
      s.session.replies.map (·.value) = [[1]] ∧
      let history := outputs step events (start { store := {} }) getSeesSet
      (∃ ps, Linearizes MapOp.perform ({} : Store).content history ps srv.world.store.content) ∧
        ∀ i s, srv.sessions[i]? = some s →
          s.session.replies.map (·.value) = history.filterMap (reply? i) := by
  have hreplies : (run step (start { store := {} }) getSeesSet).bind (fun srv =>
      srv.sessions[0]?.map fun s => s.session.replies.map (·.value)) = some [[1]] := by decide
  obtain ⟨srv, hr, hfirst⟩ := Option.bind_eq_some_iff.1 hreplies
  obtain ⟨s, hi, hvalue⟩ := Option.map_eq_some_iff.1 hfirst
  exact ⟨srv, s, hr, hi, hvalue, run_clientsLinearizable Store.wf_empty (by decide) hr⟩

end Server

end ConfigServer
