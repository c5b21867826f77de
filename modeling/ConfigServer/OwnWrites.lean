/-
What a session has set, it finds. A session waits for its SET to be through
before it dispatches its next command, and a key that is in the store stays
there: so the reply to a GET of a key that its own session has set earlier is
never "not found", even if other SETs of the key race with both.
-/
import ConfigServer.Consistency
import ConfigServer.Replies

namespace ConfigServer

open Receiver Runs

/-- The store has the key. -/
def World.Binds (w : World) (key : Bytes) : Prop := ∃ e, w.store.root.value.lookup key = some e

theorem World.Found.withStats {w : World} {key : Bytes} {n : Nat} (h : w.Found key n) (stats : Counters) :
    (w.withStats stats).Found key n :=
  ⟨h.coherent.withStats stats, h.bound, h.finds⟩

/-- The commands have set the key. -/
def SetsKey (commands : List ServerCall) (key : Bytes) : Prop := ∃ value, .set ⟨key, value⟩ ∈ commands

theorem SetsKey.mono {commands commands' : List ServerCall} {key : Bytes} (h : SetsKey commands key)
    (hsub : commands ⊆ commands') : SetsKey commands' key := h.imp fun _ hmem => hsub hmem

namespace Session

theorem gets_inside (s : Session) : s.handlers.flatMap Handler.gets = s.inside.flatMap fun p => p.1.gets := by
  unfold inside
  induction s.handlers with
  | nil => rfl
  | cons handler handlers ih =>
    obtain ⟨n, offset, inside⟩ := handler
    cases inside with
    | none => simpa [Handler.gets] using ih
    | some p => simpa [Handler.gets] using ih

/-- The keys that the session has set are in the store, the last one perhaps not yet, and since
then its GETs find them. -/
structure Remembers (s : Session) : Prop where
  regular : s.Regular
  coherent : s.world.Coherent
  binds {key : Bytes} : SetsKey s.calls key →
    s.world.Binds key ∨ ∃ value j, (ServerCall.set ⟨key, value⟩, j) ∈ s.inside
  waits {command : ServerCall} {j : Nat} : (command, j) ∈ s.inside →
    ∃ call : Call, s.world.calls[j]? = some call ∧ call.op = command.op
  finds {cmd : GetCommand} {j : Nat} : (.get cmd, j) ∈ s.inside → SetsKey s.calls cmd.key →
    s.world.Found cmd.key j
  answered {before after : List ServerCall} {cmd : GetCommand} {response : GetCommandResponse} :
    s.calls = before ++ .get cmd :: after → SetsKey before cmd.key →
    s.replies[(before.flatMap ServerCall.gets).length]? = some response →
    ∃ (j : Nat) (e : EntryPtr) (entry : Entry), s.world.calls[j]? = some (.get ⟨cmd.key, .answered e entry⟩) ∧
      response = .ofGet cmd entry.value entry.reads entry.writes

theorem remembers_start {world : World} (h : world.Coherent) : (start world).Remembers where
  regular := regular_start world
  coherent := h
  binds hset := absurd hset.choose_spec List.not_mem_nil
  waits hmem := absurd hmem List.not_mem_nil
  finds hmem := absurd hmem List.not_mem_nil
  answered hcalls := absurd hcalls.symm (by simp [start])

variable {s s' : Session}

/-- Between its commands a session has replied to all its GETs. -/
theorem Regular.replies_tag (h : s.Regular) :
    s.replies.map GetCommandResponse.tag ++ (s.inside.flatMap fun p => p.1.gets).map GetCommand.tag =
      (s.calls.flatMap ServerCall.gets).map GetCommand.tag := by
  rw [← gets_inside]
  exact h.orderly.answered

/-- A GET that is in the dispatcher is the next one to be replied to. -/
theorem Regular.reply_next (h : s.Regular) {command : ServerCall} {j : Nat} (hinside : s.inside = [(command, j)])
    {before after : List ServerCall} {cmd : GetCommand} (hcalls : s.calls = before ++ .get cmd :: after)
    (hle : s.replies.length ≤ (before.flatMap ServerCall.gets).length) :
    command = .get cmd ∧ (before.flatMap ServerCall.gets).length = s.replies.length := by
  have htags := h.replies_tag
  rw [hinside, hcalls] at htags
  have hnext := congrArg (·[(before.flatMap ServerCall.gets).length]?) htags
  simp only [List.flatMap_cons, List.flatMap_nil, List.append_nil, List.flatMap_append, List.map_append] at hnext
  rw [List.getElem?_append_right (by simpa using hle), List.getElem?_append_right (by simp)] at hnext
  simp only [List.length_map, Nat.sub_self, ServerCall.gets, List.map_cons, List.map_nil, List.singleton_append,
    List.getElem?_cons_zero] at hnext
  cases command with
  | set cmd' => simp at hnext
  | get cmd' =>
    obtain ⟨key, id⟩ := cmd
    obtain ⟨key', id'⟩ := cmd'
    cases hdiff : (before.flatMap ServerCall.gets).length - s.replies.length with
    | zero =>
      rw [hdiff] at hnext
      cases hnext
      exact ⟨rfl, by omega⟩
    | succ n =>
      rw [hdiff] at hnext
      cases hnext

/-- Whoever works on the store. -/
theorem Remembers.store (h : s.Remembers) {action : ConfigServer.Action} {world : World}
    (hworld : s.world.step action = some world) : Remembers { s with world } := by
  have hstep := World.step_spec hworld
  obtain ⟨own, hg⟩ := hstep.guarantee h.coherent
  refine ⟨h.regular.world world, hstep.coherent h.coherent, fun hset => ?_, fun hmem => ?_, fun hmem hset => ?_,
    fun hcalls hset hresponse => ?_⟩
  · exact (h.binds hset).imp_left fun hbinds => hbinds.imp fun e he => hg.sub _ e he
  · obtain ⟨call, hj, hop⟩ := h.waits hmem
    obtain ⟨call', hj', hfollows⟩ := World.step_follows hworld hj
    exact ⟨call', hj', hfollows.1.trans hop⟩
  · exact (h.finds hmem hset).step hworld
  · obtain ⟨j, e, entry, hj, rfl⟩ := h.answered hcalls hset hresponse
    obtain ⟨call', hj', hfollows⟩ := World.step_follows hworld hj
    obtain rfl := hfollows.2 rfl
    exact ⟨j, e, entry, hj', rfl⟩

/-- The next command: all SETs before it are through. -/
theorem Remembers.dispatch (h : s.Remembers) {command : ServerCall} (hregular : s'.Regular)
    (hidle : s.inside = []) (hinside : s'.inside = [(command, s.world.calls.length)])
    (hcalls : s'.calls = s.calls ++ [command]) (hreplies : s'.replies = s.replies)
    (hworld : s.world.step command.action = some s'.world) : s'.Remembers := by
  have hstore := h.store hworld
  have hbinds {key : Bytes} (hset : SetsKey s.calls key) : s.world.Binds key ∧ s'.world.Binds key := by
    refine ⟨(h.binds hset).resolve_right ?_, (hstore.binds hset).resolve_right ?_⟩
    · rintro ⟨value, j, hmem⟩
      rw [hidle] at hmem
      cases hmem
    · rintro ⟨value, j, hmem⟩
      rw [show inside { s with world := s'.world } = [] from hidle] at hmem
      cases hmem
  have hsplit {key : Bytes} (hset : SetsKey s'.calls key) :
      SetsKey s.calls key ∨ ∃ value, command = .set ⟨key, value⟩ := by
    obtain ⟨value, hmem⟩ := hset
    rw [hcalls] at hmem
    exact (List.mem_append.1 hmem).imp (fun hmem => ⟨value, hmem⟩) fun hmem =>
      ⟨value, (List.mem_singleton.1 hmem).symm⟩
  obtain ⟨call, hcall, hop, -, -⟩ := Server.calls_dispatch hworld
  refine ⟨hregular, hstore.coherent, fun hset => ?_, fun hmem => ?_, fun {cmd j} hmem hset => ?_,
    fun {before after cmd response} hsplit' hset hresponse => ?_⟩
  · refine (hsplit hset).imp (fun hset => (hbinds hset).2) ?_
    rintro ⟨value, rfl⟩
    exact ⟨value, _, hinside ▸ List.mem_singleton_self _⟩
  · rw [hinside] at hmem
    cases List.mem_singleton.1 hmem
    exact ⟨call, by rw [hcall]; exact List.getElem?_concat_length, hop⟩
  · rw [hinside] at hmem
    cases List.mem_singleton.1 hmem
    have hset := (hsplit hset).resolve_right (by rintro ⟨value, heq⟩; cases heq)
    have hfound : s.world.Found cmd.key s.world.calls.length :=
      ⟨h.coherent, (hbinds hset).1, fun hle hj _ => absurd (List.getElem?_eq_some_iff.1 hj).1 (Nat.not_lt.2 hle)⟩
    exact hfound.step hworld
  · rw [hcalls] at hsplit'
    rw [hreplies] at hresponse
    rcases List.eq_nil_or_concat' after with rfl | ⟨after, last, rfl⟩
    · -- It is the new command, which has no reply yet.
      obtain ⟨rfl, -⟩ := List.append_inj' hsplit' rfl
      have htags := congrArg List.length h.regular.replies_tag
      rw [hidle] at htags
      simp only [List.flatMap_nil, List.map_nil, List.append_nil, List.length_map] at htags
      rw [← htags, List.getElem?_eq_none (Nat.le_refl _)] at hresponse
      cases hresponse
    · have hlast : s.calls = before ++ .get cmd :: after := by
        rw [← List.cons_append, ← List.append_assoc] at hsplit'
        exact (List.append_inj' hsplit' rfl).1
      exact hstore.answered hlast hset hresponse

/-- The dispatcher is done with the command. -/
theorem Remembers.done (h : s.Remembers) {command : ServerCall} {j : Nat} {call : Call} {answer : Answer}
    (hregular : s'.Regular) (hinside : s.inside = [(command, j)]) (hidle : s'.inside = [])
    (hcalls : s'.calls = s.calls)
    (hreplies : s'.replies = s.replies ++ command.gets.filterMap fun cmd => call.response? cmd)
    (hworld : s'.world = s.world) (hj : s.world.calls[j]? = some call) (hresult : call.result? = some answer) :
    s'.Remembers := by
  obtain ⟨call', hj', hop⟩ := h.waits (hinside ▸ List.mem_singleton_self (command, j))
  cases hj.symm.trans hj'
  have hnone {p : ServerCall × Nat} (hmem : p ∈ s'.inside) : False := by
    rw [hidle] at hmem
    cases hmem
  refine ⟨hregular, hworld ▸ h.coherent, fun {key} hset => .inl ?_, fun hmem => (hnone hmem).elim,
    fun hmem => (hnone hmem).elim, fun {before after cmd response} hsplit hset hresponse => ?_⟩
  · rw [hworld]
    rcases h.binds (hcalls ▸ hset) with hbinds | ⟨value, j', hmem⟩
    · exact hbinds
    · -- The SET has returned, so it has published.
      rw [hinside] at hmem
      cases List.mem_singleton.1 hmem
      cases call with
      | get c => cases hop
      | set c =>
        obtain ⟨key', given, value', pc⟩ := c
        cases hop
        have hok := h.coherent.set_ok hj
        cases pc with
        | done => exact hok
        | _ => cases hresult
  · rw [hworld]
    rw [hreplies] at hresponse
    rw [hcalls] at hsplit
    by_cases hold : (before.flatMap ServerCall.gets).length < s.replies.length
    · rw [List.getElem?_append_left hold] at hresponse
      exact h.answered hsplit hset hresponse
    · -- The reply is the one that is being sent.
      obtain ⟨rfl, hnew⟩ := h.regular.reply_next hinside hsplit (Nat.not_lt.1 hold)
      rw [hnew, List.getElem?_append_right (Nat.le_refl _), Nat.sub_self] at hresponse
      have hanswer : call.response? cmd = some response := by
        cases hcall : call.response? cmd with
        | none => simp [ServerCall.gets, hcall] at hresponse
        | some response' => simpa [ServerCall.gets, hcall] using hresponse
      have hfound := h.finds (hinside ▸ List.mem_singleton_self _) (hset.mono ?_)
      · unfold Call.response? at hanswer
        split at hanswer
        · cases hop
          exact (hfound.finds (Nat.le_refl _) hj rfl).elim
        · cases hop
          cases hanswer
          exact ⟨j, _, _, hj, rfl⟩
        · cases hanswer
      · rw [hsplit]
        exact List.subset_append_left _ _

theorem Remembers.step {a : Action} (h : s.Remembers) (hs : s.step a = some s') : s'.Remembers := by
  have hregular := h.regular.step hs
  have hone : s.handlers.length ≤ 1 := Nat.le_trans (Nat.le_add_left _ _) h.regular.orderly.single
  cases hown : a.isOwn with
  | false =>
    cases a with
    | store action =>
      obtain ⟨world, hworld, rfl⟩ := Option.map_eq_some_iff.1 (step_store hs)
      exact h.store hworld
    | _ => cases hown
  | true =>
    cases step_serves hone hown hs with
    | quiet hinside hcalls hreplies hworld hevents =>
      refine ⟨hregular, hworld ▸ h.coherent, ?_, ?_, ?_, ?_⟩
      · rw [hinside, hcalls, hworld]
        exact h.binds
      · rw [hinside, hworld]
        exact h.waits
      · rw [hinside, hcalls, hworld]
        exact h.finds
      · rw [hcalls, hreplies, hworld]
        exact h.answered
    | dispatch hidle hinside hcalls hreplies hworld hevents =>
      exact h.dispatch hregular hidle hinside hcalls hreplies hworld
    | done hinside hidle hcalls hreplies hshown hworld hj hresult hevents =>
      exact h.done hregular hinside hidle hcalls hreplies hworld hj hresult

end Session

namespace Server

variable {s₀ : Store} {as : List Action} {srv : Server} {s : Owned}

theorem run_remembers (hs₀ : s₀.Wf) (hr : run step (start { store := s₀ }) as = some srv)
    (hs : s ∈ srv.sessions) :
    (srv.view s.session).Remembers := by
  refine run_each ⟨fun h hs => h.step hs, fun stats h => ?_⟩ (fun bs srv hr => ?_) hr hs
  · exact ⟨h.regular.world _, h.coherent.withStats stats, h.binds, h.waits,
      fun hmem hset => (h.finds hmem hset).withStats stats, h.answered⟩
  · obtain ⟨⟨stats, hworld⟩, -⟩ := run_world hr
    exact Session.remembers_start
      ((World.run_coherent (World.coherent_start hs₀) hworld).withStats srv.world.store.stats)

/-- **A session finds what it has set.** In any run of a server, whatever races there are, a GET
that a session dispatches behind a SET of the same key is not replied to with "not found", but with a value
that was loaded for the key or that some session has set, or with the empty string, which the SET of a
session leaves when it has to try again. -/
theorem run_findsOwn (hs₀ : s₀.Wf) (hr : run step (start { store := s₀ }) as = some srv) (hs : s ∈ srv.sessions)
    {before after : List ServerCall} {cmd : GetCommand} (hcalls : s.session.calls = before ++ .get cmd :: after)
    (hset : SetsKey before cmd.key) {response : GetCommandResponse}
    (hresponse : s.session.replies[(before.flatMap ServerCall.gets).length]? = some response) :
    ∃ value reads writes, response = .ofGet cmd value reads writes ∧ srv.Written s₀ cmd.key value := by
  obtain ⟨j, e, entry, hj, rfl⟩ := (run_remembers hs₀ hr hs).answered hcalls hset hresponse
  exact ⟨entry.value, entry.reads, entry.writes, rfl, run_answered hs₀ hr hj⟩

/-- A session sets a key and gets it. -/
def setThenGet : List Action :=
  [.accept, .session 0 (.strand .run),
    .session 0 (.receive ([15, 0, 0, 0, 1, 1, 0, 0, 0, 97, 1, 0, 0, 0, 1] ++
      [12, 0, 0, 0, 0, 1, 0, 0, 0, 97, 7, 0])),
    .session 0 (.iterate 0)] ++
  List.replicate 7 (.call 0) ++ [.session 0 (.respond 0), .session 0 (.iterate 0)] ++
  List.replicate 8 (.call 1) ++ [.session 0 (.respond 0)]

theorem run_findsOwn_setThenGet :
    ∃ srv s response, run step (start { store := {} }) setThenGet = some srv ∧ s ∈ srv.sessions ∧
      s.session.calls = [.set ⟨[97], [1]⟩] ++ .get ⟨[97], 7⟩ :: [] ∧ s.session.replies[0]? = some response ∧
      ∃ value reads writes, response = .ofGet ⟨[97], 7⟩ value reads writes ∧ srv.Written {} [97] value := by
  have hreplies : (run step (start { store := {} }) setThenGet).bind (fun srv =>
      srv.sessions[0]?.map fun s => (s.session.calls, s.session.replies)) =
      some ([.set ⟨[97], [1]⟩, .get ⟨[97], 7⟩], [⟨[97], 7, 1, 1, [1]⟩]) := by decide
  obtain ⟨srv, hr, hfirst⟩ := Option.bind_eq_some_iff.1 hreplies
  obtain ⟨s, hi, heq⟩ := Option.map_eq_some_iff.1 hfirst
  obtain ⟨hboth, hone⟩ := Prod.mk.inj heq
  have hcalls : s.session.calls = [.set ⟨[97], [1]⟩] ++ .get ⟨[97], 7⟩ :: [] := hboth
  have hs := List.mem_of_getElem? hi
  have hresponse : s.session.replies[0]? = some ⟨[97], 7, 1, 1, [1]⟩ := by rw [hone]; rfl
  have hset : SetsKey [.set ⟨[97], [1]⟩] [97] := ⟨[1], List.mem_singleton_self _⟩
  exact ⟨srv, s, _, hr, hs, hcalls, hresponse, run_findsOwn Store.wf_empty hr hs hcalls hset hresponse⟩

end Server

end ConfigServer
