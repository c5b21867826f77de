/-
From a client to its session and back. Whatever the clients and the server do,
and whatever connections are closed, a session dispatches the first of its
client's commands, in order, and the client processes the first of the
session's replies, in order. So the responses a client processes are to its
GETs, one after the other: the key and the id of each are those of the GET that
is next.
-/
import ConfigServer.OwnWrites
import ConfigServer.RequestIds
import ConfigServer.System

namespace ConfigServer

open Framing LittleEndian Receiver Runs

/-! ## From messages to commands -/

/-- A message that starts with its own length is refused when it is too long. -/
theorem Receiver.frameFront_long {C : Type} {read : Bytes → Except String C} {bs : Bytes}
    (hexact : leNat (bs.take msgSizeBytes) = bs.length) (hlong : maxMessageSize < bs.length) :
    frameFront read bs = .bad (.invalidMessageSize bs.length) := by
  refine frameFront_size (Nat.le_of_lt (Nat.lt_trans ?_ hlong)) hexact (.inr hlong)
  decide

theorem Message.frame?_eq_some {cmd : Message} {bytes : Bytes} (h : cmd.frame? = some bytes) :
    ∃ writer, cmd.serialize = .ok writer ∧ writer.buffer = bytes := by
  unfold Message.frame? at h
  cases hw : cmd.serialize with
  | error e =>
    rw [hw] at h
    cases h
  | ok writer =>
    rw [hw] at h
    exact ⟨writer, rfl, Option.some.inj h⟩

/-- Each of the messages written is the frame of a command, in order, which the peer can read or refuses. -/
theorem Receiver.pairs_of_written {C : Type} {read : Bytes → Except String C} {message : C → Message}
    {commands : List C} {written : List Bytes}
    (hfront : ∀ command ∈ commands, ∀ writer, (message command).serialize = .ok writer →
      frameFront read writer.buffer = .frame command writer.buffer.length ∨
        ∃ e, frameFront read writer.buffer = .bad e)
    (hwritten : written.map some <+: (commands.map message).map Message.frame?) :
    ∃ pairs : List (Bytes × C), pairs.map (·.1) = written ∧ pairs.map (·.2) <+: commands ∧
      ∀ m ∈ pairs, frameFront read m.1 = .frame m.2 m.1.length ∨ ∃ e, frameFront read m.1 = .bad e := by
  induction written generalizing commands with
  | nil => exact ⟨[], rfl, List.nil_prefix, fun m hm => absurd hm List.not_mem_nil⟩
  | cons bytes written ih =>
    cases commands with
    | nil => exact absurd (List.prefix_nil.1 hwritten) (List.cons_ne_nil _ _)
    | cons command commands =>
      obtain ⟨hbytes, hrest⟩ := List.cons_prefix_cons.1 hwritten
      obtain ⟨writer, hwriter, rfl⟩ := Message.frame?_eq_some hbytes.symm
      obtain ⟨pairs, hfirst, hsecond, hgood⟩ := ih (fun c hc => hfront c (List.mem_cons_of_mem _ hc)) hrest
      refine ⟨(writer.buffer, command) :: pairs, by rw [List.map_cons, hfirst],
        (List.prefix_cons_inj _).2 hsecond, fun m hm => ?_⟩
      rcases List.mem_cons.1 hm with rfl | hm
      · exact hfront command List.mem_cons_self writer hwriter
      · exact hgood m hm

/-- Of commands written one after the other, each of which the peer can read or
refuses, it reads the first ones, wherever its reads cut the stream. -/
theorem Receiver.items_of_written {C : Type} {read : Bytes → Except String C} {message : C → Message}
    {commands : List C} {written : List Bytes} {received : Bytes}
    (hfront : ∀ command ∈ commands, ∀ writer, (message command).serialize = .ok writer →
      frameFront read writer.buffer = .frame command writer.buffer.length ∨
        ∃ e, frameFront read writer.buffer = .bad e)
    (hwritten : written.map some <+: (commands.map message).map Message.frame?)
    (hreceived : received <+: written.flatten) : (reference read received).items <+: commands := by
  obtain ⟨pairs, rfl, hsecond, hgood⟩ := pairs_of_written hfront hwritten
  exact ((Cutter.parse_items_prefix hreceived).trans (Cutter.parse_items_messages hgood)).trans hsecond

/-- Once it has received all that was written, and refused nothing, it has read all of the commands. -/
theorem Receiver.items_of_all_written {C : Type} {read : Bytes → Except String C} {message : C → Message}
    {commands : List C} {written : List Bytes} {rest : Bytes}
    (hfront : ∀ command ∈ commands, ∀ writer, (message command).serialize = .ok writer →
      frameFront read writer.buffer = .frame command writer.buffer.length ∨
        ∃ e, frameFront read writer.buffer = .bad e)
    (hwritten : written.map some = (commands.map message).map Message.frame?)
    (hstatus : (reference read written.flatten).status = .reading rest) :
    (reference read written.flatten).items = commands := by
  have hall : written.map some <+: (commands.map message).map Message.frame? := by rw [hwritten]
  obtain ⟨pairs, rfl, hsecond, hgood⟩ := pairs_of_written hfront hall
  have hlength : (pairs.map (·.2)).length = commands.length := by simpa using congrArg List.length hwritten
  exact (Cutter.parse_messages_reading hgood hstatus).trans (hsecond.eq_of_length hlength)

/-- The command has a nonzero id if it is a GET, and is written behind its own length. -/
def ServerCall.Sendable (command : ServerCall) : Prop := ValidCall command ∧ command.message.PrefixExact

theorem ServerCall.Sendable.front {command : ServerCall} (h : command.Sendable) {writer : MemoryWriter}
    (hw : command.message.serialize = .ok writer) :
    frameFront readServer writer.buffer = .frame command writer.buffer.length ∨
      ∃ e, frameFront readServer writer.buffer = .bad e := by
  by_cases hsize : writer.buffer.length ≤ maxMessageSize
  · refine .inl (serverCall_frame h.1 ?_ hsize)
    cases command <;> exact hw
  · exact .inr ⟨_, frameFront_long (h.2 writer hw) (Nat.not_le.1 hsize)⟩

theorem response_front {response : GetCommandResponse} (hid : response.requestId ≠ 0)
    (hexact : (Message.getResponse response).PrefixExact) {writer : MemoryWriter}
    (hw : (Message.getResponse response).serialize = .ok writer) :
    frameFront readClient writer.buffer = .frame response writer.buffer.length ∨
      ∃ e, frameFront readClient writer.buffer = .bad e := by
  by_cases hsize : writer.buffer.length ≤ maxMessageSize
  · exact .inl (response_frame hid hw hsize)
  · exact .inr ⟨_, frameFront_long (hexact writer hw) (Nat.not_le.1 hsize)⟩

/-! ## A spammer -/

theorem nextRequestId_ne_zero (id : UInt16) : GetCommand.nextRequestId id ≠ 0 := by
  unfold GetCommand.nextRequestId
  dsimp only
  split
  · decide
  · assumption

/-- The `n`-th GET of the commands, and those before it. -/
theorem split_gets {commands : List ServerCall} {n : Nat} {cmd : GetCommand}
    (h : (commands.flatMap ServerCall.gets)[n]? = some cmd) :
    ∃ before after, commands = before ++ .get cmd :: after ∧ (before.flatMap ServerCall.gets).length = n := by
  induction commands generalizing n with
  | nil => cases h
  | cons command commands ih =>
    cases command with
    | set cmd' =>
      obtain ⟨before, after, rfl, hn⟩ := ih (n := n) h
      exact ⟨.set cmd' :: before, after, rfl, hn⟩
    | get cmd' =>
      cases n with
      | zero =>
        cases h
        exact ⟨[], commands, rfl, rfl⟩
      | succ n =>
        obtain ⟨before, after, rfl, hn⟩ := ih (n := n) h
        exact ⟨.get cmd' :: before, after, rfl, by simp [ServerCall.gets, hn]⟩

namespace Spammer

/-- A generated key or value is short. -/
theorem generateTest_length (startString : Bytes) (n : Fin 100) :
    (generateTest startString (n + 1)).length ≤ startString.length + 3 := by
  have hdigits : ∀ n : Fin 100, (Nat.toDigits 10 (n + 1)).length ≤ 3 := by decide
  have hn := hdigits n
  simp only [generateTest, List.length_append, List.length_map]
  omega

theorem generateCommand_cases (s : Spammer) (d : Draw) :
    (∃ key value, s.generateCommand d = ({ s with allKeys := s.allKeys ++ [key] }, .set ⟨key, value⟩) ∧
        key.length ≤ 10 ∧ value.length ≤ 12) ∨
      ∃ key, s.generateCommand d =
          ({ s with id := GetCommand.nextRequestId s.id }, .get ⟨key, GetCommand.nextRequestId s.id⟩) ∧
        (key ∈ s.allKeys ∨ s.allKeys = [] ∧ key.length ≤ 10) := by
  have hkey : (generateTestKey d).length ≤ 10 := generateTest_length _ d.key
  unfold generateCommand
  dsimp only
  split
  · exact .inl ⟨_, _, rfl, hkey, generateTest_length _ d.value⟩
  · refine .inr ?_
    unfold generateGetCommand
    split
    · next hnone => exact ⟨_, rfl, .inr ⟨hnone, hkey⟩⟩
    · exact ⟨_, rfl, .inl (List.get_mem _ _)⟩

theorem commands_cons (s : Spammer) (d : Draw) (draws : List Draw) :
    s.commands (d :: draws) = (s.generateCommand d).2 :: (s.generateCommand d).1.commands draws := rfl

/-- The server can read what a spammer sends. -/
theorem commands_sendable {s : Spammer} (hkeys : ∀ key ∈ s.allKeys, key.length ≤ 10) (draws : List Draw) :
    ∀ command ∈ s.commands draws, command.Sendable := by
  induction draws generalizing s with
  | nil => exact fun command hmem => absurd hmem List.not_mem_nil
  | cons d draws ih =>
    intro command hmem
    rw [commands_cons] at hmem
    rcases generateCommand_cases s d with ⟨key, value, heq, hkey, hvalue⟩ | ⟨key, heq, hkey⟩
    · rw [heq] at hmem
      rcases List.mem_cons.1 hmem with rfl | hmem
      · refine ⟨trivial, (setFormat.prefix_iff _).2 fun _ => ?_⟩
        rw [setFrame_length]
        dsimp only
        omega
      · refine ih (fun k hk => ?_) command hmem
        rcases List.mem_append.1 hk with hk | hk
        · exact hkeys k hk
        · exact List.mem_singleton.1 hk ▸ hkey
    · have hlength : key.length ≤ 10 := hkey.elim (hkeys key) And.right
      rw [heq] at hmem
      rcases List.mem_cons.1 hmem with rfl | hmem
      · refine ⟨nextRequestId_ne_zero _, (getFormat.prefix_iff _).2 fun _ => ?_⟩
        rw [getFrame_length]
        dsimp only
        omega
      · exact ih (s := { s with id := GetCommand.nextRequestId s.id }) hkeys command hmem

/-- A GET has the next id, and its key is one that was set before, if any was. -/
theorem commands_split {s : Spammer} {draws : List Draw} {before after : List ServerCall} {cmd : GetCommand}
    (h : s.commands draws = before ++ .get cmd :: after) :
    cmd.requestId = GetCommand.nextRequestId^[(before.flatMap ServerCall.gets).length + 1] s.id ∧
      (s.allKeys ≠ [] ∨ (∃ set, .set set ∈ before) → cmd.key ∈ s.allKeys ∨ SetsKey before cmd.key) := by
  induction draws generalizing s before with
  | nil => exact absurd h.symm (by simp [commands])
  | cons d draws ih =>
    rw [commands_cons] at h
    rcases generateCommand_cases s d with ⟨key, value, heq, -⟩ | ⟨key, heq, hkey⟩
    · rw [heq] at h
      cases before with
      | nil => cases (List.cons.inj h).1
      | cons command before =>
        obtain ⟨rfl, hrest⟩ := List.cons.inj h
        obtain ⟨hid, hset⟩ := ih hrest
        refine ⟨hid, fun _ => ?_⟩
        rcases hset (.inl (by simp)) with hmem | hset
        · rcases List.mem_append.1 hmem with hmem | hmem
          · exact .inl hmem
          · exact .inr ⟨value, List.mem_singleton.1 hmem ▸ List.mem_cons_self⟩
        · exact .inr (hset.mono (List.subset_cons_self _ _))
    · rw [heq] at h
      cases before with
      | nil =>
        cases (List.cons.inj h).1
        refine ⟨rfl, ?_⟩
        rintro (hkeys | ⟨set, hmem⟩)
        · exact .inl (hkey.resolve_right fun hnone => hkeys hnone.1)
        · exact absurd hmem List.not_mem_nil
      | cons command before =>
        obtain ⟨rfl, hrest⟩ := List.cons.inj h
        obtain ⟨hid, hset⟩ := ih hrest
        refine ⟨?_, fun hsome => ?_⟩
        · rw [hid, ← Function.iterate_succ_apply]
          rfl
        · refine (hset (hsome.imp_right ?_)).imp_right fun hset => hset.mono (List.subset_cons_self _ _)
          rintro ⟨set, hmem⟩
          exact ⟨set, (List.mem_cons.1 hmem).resolve_left (by rintro heq; cases heq)⟩

end Spammer

/-! ## A client and its session -/

namespace System

variable {s₀ : Store} {as : List Action} {sys : System} {i : Nat} {c : Client} {s : Owned}

theorem run_connected {world : World} (hr : run step (start world) as = some sys) : sys.Connected :=
  invariant (fun _ _ _ h hs => h.step hs) hr (connected_start world)

/-- A session dispatches the first of its client's commands. -/
theorem run_calls {world : World} (hr : run step (start world) as = some sys)
    (hc : sys.clients[i]? = some (some c)) (hs : sys.server.sessions[i]? = some s)
    (hcommands : ∀ command ∈ c.commands, command.Sendable) : s.session.calls <+: c.commands := by
  have hconnected := run_connected hr
  have hwritten := (hconnected.regular (List.mem_of_getElem? hc)).emits.written
  have hdispatched := (Server.run_regular (run_server hr) (List.mem_of_getElem? hs)).inOrder.dispatched
  exact hdispatched.trans
    (items_of_written (fun command hmem _ hw => (hcommands command hmem).front hw) hwritten
      (hconnected.streams hc hs).toServer)

/-- A client can read a reply of a session, or refuses it for its size. -/
theorem reply_front {srv : Server} {bs : List Server.Action} (hs₀ : s₀.Wf) (hshort : s₀.Confined Server.Short)
    (hr : run Server.step (.start { store := s₀ }) bs = some srv) (hs : s ∈ srv.sessions)
    {response : GetCommandResponse} (hresponse : response ∈ s.session.replies) {writer : MemoryWriter}
    (hw : (Message.getResponse response).serialize = .ok writer) :
    frameFront readClient writer.buffer = .frame response writer.buffer.length ∨
      ∃ e, frameFront readClient writer.buffer = .bad e := by
  refine response_front ?_ ?_ hw
  · exact Server.run_requestId hr hs hresponse
  · have hlen := Server.run_short hs₀ hshort hr hs hresponse
    refine (responseFormat.prefix_iff response).2 fun _ => ?_
    rw [responseFrame_length]
    exact hlen

/-- A client processes the first of its session's replies. -/
theorem run_responses (hs₀ : s₀.Wf) (hshort : s₀.Confined Server.Short)
    (hr : run step (start { store := s₀ }) as = some sys) (hc : sys.clients[i]? = some (some c))
    (hs : sys.server.sessions[i]? = some s) : c.receiver.calls <+: s.session.replies := by
  have hconnected := run_connected hr
  have hsession := List.mem_of_getElem? hs
  have hserver := run_server hr
  rw [(hconnected.regular (List.mem_of_getElem? hc)).calls]
  exact items_of_written (fun response hresponse writer hw => reply_front hs₀ hshort hserver hsession hresponse hw)
    (Server.run_regular hserver hsession).inOrder.written (hconnected.streams hc hs).toClient

def testKey1 : Bytes := Spammer.generateTestKey ⟨0, 0, 0, 0⟩

def testValue1 : Bytes := Spammer.generateTestValue ⟨0, 0, 0, 0⟩

/-- What a spammer draws for a SET and a GET of its key. -/
def setThenGetDraws : List Draw := [⟨0, 0, 0, 0⟩, ⟨1, 0, 0, 0⟩]

/-- A spammer sends a SET and a GET, and processes the response. -/
def spammed : List Action :=
  [.connect (({} : Spammer).commands setThenGetDraws), .server .accept, .client 0 (.strand .run),
    .client 0 (.strand .run), .client 0 (.strand .run), .client 0 (.strand (.writeDone 0)),
    .client 0 (.strand .run), .server (.session 0 (.strand .run)),
    .server (.session 0 (.receive ([31, 0, 0, 0, 1, 8, 0, 0, 0] ++ testKey1 ++ [10, 0, 0, 0] ++ testValue1 ++
      [19, 0, 0, 0, 0, 8, 0, 0, 0] ++ testKey1 ++ [1, 0]))),
    .server (.session 0 (.iterate 0))] ++
  List.replicate 7 (.server (.call 0)) ++
  [.server (.session 0 (.respond 0)), .server (.session 0 (.iterate 0))] ++
  List.replicate 8 (.server (.call 1)) ++
  [.server (.session 0 (.respond 0)), .server (.session 0 (.strand .run)),
    .client 0 (.receive ([49, 0, 0, 0, 2, 8, 0, 0, 0] ++ testKey1 ++ [1, 0] ++ [1, 0, 0, 0, 0, 0, 0, 0] ++
      [1, 0, 0, 0, 0, 0, 0, 0] ++ [10, 0, 0, 0] ++ testValue1))]

set_option maxRecDepth 4000 in
theorem run_spammed :
    ∃ sys c s, run step (start { store := {} }) spammed = some sys ∧ sys.clients = [some c] ∧
      sys.server.sessions[0]? = some s ∧ c.commands = [.set ⟨testKey1, testValue1⟩, .get ⟨testKey1, 1⟩] ∧
      c.receiver.calls = [⟨testKey1, 1, 1, 1, testValue1⟩] := by
  have hrun : (run step (start { store := {} }) spammed).bind (fun sys =>
      sys.server.sessions[0]?.map fun _ => sys.clients.map
        (Option.map fun c => (c.commands, c.receiver.calls))) =
      some [some ([.set ⟨testKey1, testValue1⟩, .get ⟨testKey1, 1⟩], [⟨testKey1, 1, 1, 1, testValue1⟩])] := by
    decide
  obtain ⟨sys, hr, hrest⟩ := Option.bind_eq_some_iff.1 hrun
  obtain ⟨s, hs, heq⟩ := Option.map_eq_some_iff.1 hrest
  obtain ⟨client, hclients, hclient⟩ := List.map_eq_singleton_iff.1 heq
  obtain ⟨c, rfl, hboth⟩ := Option.map_eq_some_iff.1 hclient
  obtain ⟨hcommands, hcalls⟩ := Prod.mk.inj hboth
  exact ⟨sys, c, s, hr, hclients, hs, hcommands, hcalls⟩

theorem sendable_spammed :
    ∀ command ∈ [ServerCall.set ⟨testKey1, testValue1⟩, .get ⟨testKey1, 1⟩], command.Sendable :=
  Spammer.commands_sendable (s := {}) (fun _ hmem => absurd hmem List.not_mem_nil) setThenGetDraws

/-- **End to end.** In any run of clients and a server, a session dispatches the first commands of
its client, in order and unchanged, and the client processes the first of the session's replies,
so that the responses it processes are to its GETs, one after the other. Neither the
chunks the streams are read in, nor other clients, nor connections that close change that. -/
theorem run_endToEnd (hs₀ : s₀.Wf) (hshort : s₀.Confined Server.Short)
    (hr : run step (start { store := s₀ }) as = some sys) (hc : sys.clients[i]? = some (some c))
    (hs : sys.server.sessions[i]? = some s) (hcommands : ∀ command ∈ c.commands, command.Sendable) :
    s.session.calls <+: c.commands ∧ c.receiver.calls <+: s.session.replies ∧
      c.receiver.calls.map GetCommandResponse.tag <+:
        (c.commands.flatMap ServerCall.gets).map GetCommand.tag := by
  have hcalls := run_calls hr hc hs hcommands
  have hresponses := run_responses hs₀ hshort hr hc hs
  have hanswered := (Server.run_regular (run_server hr) (List.mem_of_getElem? hs)).inOrder.answered
  have hgets : s.session.calls.flatMap ServerCall.gets <+: c.commands.flatMap ServerCall.gets := by
    obtain ⟨rest, hrest⟩ := hcalls
    rw [← hrest, List.flatMap_append]
    exact List.prefix_append _ _
  exact ⟨hcalls, hresponses, ((hresponses.map _).trans hanswered).trans (hgets.map _)⟩

theorem run_endToEnd_spammed :
    ∃ sys c s, run step (start { store := {} }) spammed = some sys ∧ sys.clients[0]? = some (some c) ∧
      sys.server.sessions[0]? = some s ∧ c.receiver.calls.length = 1 ∧
      s.session.calls <+: c.commands ∧ c.receiver.calls <+: s.session.replies ∧
      c.receiver.calls.map GetCommandResponse.tag <+:
        (c.commands.flatMap ServerCall.gets).map GetCommand.tag := by
  obtain ⟨sys, c, s, hr, hclients, hs, hcommands, hcalls⟩ := run_spammed
  have hc : sys.clients[0]? = some (some c) := by rw [hclients]; rfl
  have hone : c.receiver.calls.length = 1 := by rw [hcalls]; rfl
  exact ⟨sys, c, s, hr, hc, hs, hone,
    run_endToEnd Store.wf_empty Server.confined_short hr hc hs (hcommands ▸ sendable_spammed)⟩

/-- The value was loaded for the key, or a client has posted a SET of the key with it, or another
program has sent one; or it is the empty string, and there was a SET of the key. -/
def Said (sys : System) (s₀ : Store) (key value : Bytes) : Prop :=
  s₀.content key = some value ∨ ∃ given, (value = given ∨ value = []) ∧
    ((∃ c, some c ∈ sys.clients ∧ .set ⟨key, given⟩ ∈ c.commands) ∨
      ∃ (i : Nat) (s : Owned), sys.clients[i]? = some none ∧ sys.server.sessions[i]? = some s ∧
        .set ⟨key, given⟩ ∈ s.session.calls)

/-- **What a client is told is what some client has said of the same key.** A response that a client
processes is to one of its GETs; it is "not found", for a key that was not loaded, or carries a value that
was loaded for the key or that was sent for it, by some client, or the empty string that a SET sent for it
leaves when it has to try again. What is loaded is short enough for a reply, and what the clients send is
written behind its own length, with a nonzero id if it is a GET. -/
theorem run_told (hs₀ : s₀.Wf) (hshort : s₀.Confined Server.Short)
    (hr : run step (start { store := s₀ }) as = some sys)
    (hcommands : ∀ c, some c ∈ sys.clients → ∀ command ∈ c.commands, command.Sendable)
    (hc : sys.clients[i]? = some (some c))
    (hs : sys.server.sessions[i]? = some s) {response : GetCommandResponse}
    (hresponse : response ∈ c.receiver.calls) :
    ∃ cmd : GetCommand, .get cmd ∈ c.commands ∧
      (response = .ofGet cmd ServerDispatcher.notFound 0 0 ∧ s₀.content cmd.key = none ∨
        ∃ value reads writes, response = .ofGet cmd value reads writes ∧ sys.Said s₀ cmd.key value) := by
  have hcalls := run_calls hr hc hs (hcommands c (List.mem_of_getElem? hc))
  have hreply := (run_responses hs₀ hshort hr hc hs).subset hresponse
  obtain ⟨cmd, hcmd, hsaid⟩ := Server.run_replies hs₀ (run_server hr) (List.mem_of_getElem? hs) hreply
  refine ⟨cmd, hcalls.subset hcmd, hsaid.imp_right ?_⟩
  rintro ⟨value, reads, writes, rfl, hloaded | ⟨given, ⟨d, hd, hset⟩, hvalue⟩⟩
  · exact ⟨value, reads, writes, rfl, .inl hloaded⟩
  · refine ⟨value, reads, writes, rfl, .inr ⟨given, hvalue, ?_⟩⟩
    obtain ⟨k, hk⟩ := List.mem_iff_getElem?.1 hd
    have hlt := Nat.lt_of_lt_of_le (List.getElem?_eq_some_iff.1 hk).1 (run_connected hr).paired
    cases hclient : sys.clients[k]? with
    | none => exact absurd (List.getElem?_eq_none_iff.1 hclient) (Nat.not_le.2 hlt)
    | some client =>
      cases client with
      | none => exact .inr ⟨k, d, hclient, hk, hset⟩
      | some c' =>
        have hmem := List.mem_of_getElem? hclient
        exact .inl ⟨c', hmem, (run_calls hr hclient hk (hcommands c' hmem)).subset hset⟩

theorem run_told_spammed :
    ∃ sys c s response, run step (start { store := {} }) spammed = some sys ∧ sys.clients[0]? = some (some c) ∧
      sys.server.sessions[0]? = some s ∧ response ∈ c.receiver.calls ∧
      ∃ cmd : GetCommand, .get cmd ∈ c.commands ∧
        (response = .ofGet cmd ServerDispatcher.notFound 0 0 ∧ ({} : Store).content cmd.key = none ∨
          ∃ value reads writes, response = .ofGet cmd value reads writes ∧ sys.Said {} cmd.key value) := by
  obtain ⟨sys, c, s, hr, hclients, hs, hcommands, hcalls⟩ := run_spammed
  have hc : sys.clients[0]? = some (some c) := by rw [hclients]; rfl
  have hsendable (c' : Client) (hmem : some c' ∈ sys.clients) : ∀ command ∈ c'.commands, command.Sendable := by
    rw [hclients] at hmem
    cases List.mem_singleton.1 hmem
    exact hcommands ▸ sendable_spammed
  have hresponse : ⟨testKey1, 1, 1, 1, testValue1⟩ ∈ c.receiver.calls := hcalls ▸ List.mem_singleton_self _
  exact ⟨sys, c, s, _, hr, hc, hs, hresponse,
    run_told Store.wf_empty Server.confined_short hr hsendable hc hs hresponse⟩

/-- **A spammer's responses.** The `n`-th response that a spammer processes, counting from 0, is to its `n`-th
GET, which has the id `n % 65535 + 1`; and if it has sent a SET before that GET, the response is not "not
found": it carries a value that was loaded for the key or that a session has received in a SET of it, or the
empty string, which such a SET leaves when it has to try again. What is loaded is short enough for a reply. -/
theorem run_spammer (hs₀ : s₀.Wf) (hshort : s₀.Confined Server.Short)
    (hr : run step (start { store := s₀ }) as = some sys) (hc : sys.clients[i]? = some (some c))
    (hs : sys.server.sessions[i]? = some s) {draws : List Draw}
    (hcommands : c.commands = ({} : Spammer).commands draws) {n : Nat} {response : GetCommandResponse}
    (hn : c.receiver.calls[n]? = some response) :
    ∃ before cmd after, c.commands = before ++ .get cmd :: after ∧
      (before.flatMap ServerCall.gets).length = n ∧ cmd.requestId.toNat = n % 65535 + 1 ∧ response.tag = cmd.tag ∧
      ((∃ set, .set set ∈ before) → ∃ value reads writes, response = .ofGet cmd value reads writes ∧
        sys.server.Written s₀ cmd.key value) := by
  have hsession := List.mem_of_getElem? hs
  have hsendable : ∀ command ∈ c.commands, command.Sendable :=
    hcommands ▸ Spammer.commands_sendable (fun key hmem => absurd hmem List.not_mem_nil) draws
  obtain ⟨rest, hrest⟩ := run_calls hr hc hs hsendable
  obtain ⟨unprocessed, hreplies⟩ := run_responses hs₀ hshort hr hc hs
  have hreply : s.session.replies[n]? = some response := by
    rw [← hreplies, List.getElem?_append_left (List.getElem?_eq_some_iff.1 hn).1, hn]
  -- The reply is to the `n`-th GET dispatched.
  obtain ⟨unanswered, hanswered⟩ := (Server.run_regular (run_server hr) hsession).inOrder.answered
  have htag : ((s.session.calls.flatMap ServerCall.gets).map GetCommand.tag)[n]? = some response.tag := by
    have hmap : (s.session.replies.map GetCommandResponse.tag)[n]? = some response.tag := by
      rw [List.getElem?_map, hreply]
      rfl
    rw [← show _ = (s.session.calls.flatMap ServerCall.gets).map GetCommand.tag from hanswered]
    exact (List.getElem?_append_left (List.getElem?_eq_some_iff.1 hmap).1).trans hmap
  rw [List.getElem?_map, Option.map_eq_some_iff] at htag
  obtain ⟨cmd, hcmd, htag⟩ := htag
  obtain ⟨before, after, hcalls, hcount⟩ := split_gets hcmd
  have hsplit : c.commands = before ++ .get cmd :: (after ++ rest) := by
    rw [← hrest, hcalls, List.append_assoc, List.cons_append]
  obtain ⟨hid, hset⟩ := Spammer.commands_split (hcommands.symm.trans hsplit)
  refine ⟨before, cmd, after ++ rest, hsplit, hcount, ?_, htag.symm, fun hsome => ?_⟩
  · rw [hid, hcount]
    exact Requester.iterate_nextRequestId n
  · have hset := (hset (.inr hsome)).resolve_left List.not_mem_nil
    obtain ⟨j, e, entry, hj, rfl⟩ := (Server.run_remembers hs₀ (run_server hr) hsession).answered hcalls hset
      (hcount ▸ hreply)
    exact ⟨entry.value, entry.reads, entry.writes, rfl, Server.run_answered hs₀ (run_server hr) hj⟩

theorem run_spammer_spammed :
    ∃ sys c response, run step (start { store := {} }) spammed = some sys ∧ sys.clients[0]? = some (some c) ∧
      c.receiver.calls[0]? = some response ∧
      ∃ before cmd after, c.commands = before ++ .get cmd :: after ∧
        (before.flatMap ServerCall.gets).length = 0 ∧ cmd.requestId.toNat = 0 % 65535 + 1 ∧
        response.tag = cmd.tag ∧
        ((∃ set, .set set ∈ before) → ∃ value reads writes, response = .ofGet cmd value reads writes ∧
          sys.server.Written {} cmd.key value) := by
  obtain ⟨sys, c, s, hr, hclients, hs, hcommands, hcalls⟩ := run_spammed
  have hc : sys.clients[0]? = some (some c) := by rw [hclients]; rfl
  have hn : c.receiver.calls[0]? = some ⟨testKey1, 1, 1, 1, testValue1⟩ := by rw [hcalls]; rfl
  have hdraws : c.commands = ({} : Spammer).commands setThenGetDraws := hcommands
  exact ⟨sys, c, _, hr, hc, hn, run_spammer Store.wf_empty Server.confined_short hr hc hs hdraws hn⟩

end System

end ConfigServer
