/-
How long the replies of a server are. A GET_RESPONSE carries 18 bytes more
than the SET whose value it brings back, and a "not found" 29 bytes more than
the GET it answers. The server checks the length of what it receives, and a
client that of what it receives, but nothing that of what the server sends.
So a value set with a frame of the last few bytes below `MAX_MESSAGE_SIZE`
is stored, and every reply that carries it is one a client rejects.
-/
import ConfigServer.ProtocolFacts
import ConfigServer.Receive
import ConfigServer.StoreRuns

namespace ConfigServer

open CountedMap ServerDispatcher MemoryWriter

namespace ServerDispatcher

/-- The responses sent while these commands are processed, in order. -/
def responses (s : Store) : List ServerCall → List GetCommandResponse
  | [] => []
  | call :: calls =>
    let (s, sent) := process s () call
    sent.map Prod.snd ++ responses s calls

/-- The store after these commands. -/
def serve (s : Store) (calls : List ServerCall) : Store := Operation.run s (calls.map (Operation.process ()))

end ServerDispatcher

/-- The framing and `read` accept the command's frame. -/
def ServerCall.Accepted (call : ServerCall) : Prop := call.Good ∧ call.frame.length ≤ maxMessageSize

/-- The response is serialized into a message that a receiver does not reject for its size. -/
def GetCommandResponse.Receivable (response : GetCommandResponse) : Prop :=
  ∃ writer, response.serialize = .ok writer ∧ writer.buffer.length ≤ maxMessageSize

/-- The last SET of a key among these commands. -/
def lastSet (key : Bytes) : Option SetCommand → List ServerCall → Option SetCommand
  | last, [] => last
  | last, .set cmd :: calls => lastSet key (if cmd.key = key then some cmd else last) calls
  | last, .get _ :: calls => lastSet key last calls

/-- The GET comes after commands that leave room for its reply: the last SET
of its key is 18 bytes below the limit, or with no such SET the GET itself is
29 bytes below. -/
def ReplyFits (before : List ServerCall) (cmd : GetCommand) : Prop :=
  match lastSet cmd.key none before with
  | none => (getFormat.frame cmd).length ≤ maxMessageSize - 29
  | some last => (setFormat.frame last).length ≤ maxMessageSize - 18

/-! ## Lengths -/

theorem getFrame_length (cmd : GetCommand) : (getFormat.frame cmd).length = 11 + cmd.key.length := by
  simp only [Format.frame_length, getFormat, List.length_append, stringBytes_length,
    LittleEndian.leBytes_length]
  omega

theorem setFrame_length (cmd : SetCommand) :
    (setFormat.frame cmd).length = 13 + cmd.key.length + cmd.value.length := by
  simp only [Format.frame_length, setFormat, List.length_append, stringBytes_length]
  omega

theorem responseFrame_length (response : GetCommandResponse) :
    (responseFormat.frame response).length = 31 + response.key.length + response.value.length := by
  simp only [Format.frame_length, responseFormat, List.length_append, stringBytes_length,
    LittleEndian.leBytes_length]
  omega

theorem receivable_iff (response : GetCommandResponse) :
    response.Receivable ↔ 31 + response.key.length + response.value.length ≤ maxMessageSize := by
  constructor
  · rintro ⟨writer, hw, hle⟩
    rwa [(responseFormat.serialize_eq hw).2, responseFrame_length] at hle
  · intro hle
    have hfits : responseFormat.Fits response := by
      simp only [maxMessageSize] at hle
      exact ⟨by omega, by omega⟩
    have hw := responseFormat.serialize_ok response hfits
    refine ⟨_, hw, ?_⟩
    rwa [(responseFormat.serialize_eq hw).2, responseFrame_length]

/-! ## Which responses are sent -/

theorem processGet_sent (s : Store) (cmd : GetCommand) :
    ∃ response, (processGet s cmd ()).2 = [((), response)] :=
  ⟨_, rfl⟩

theorem mem_responses {s : Store} {calls : List ServerCall} {response : GetCommandResponse} :
    response ∈ responses s calls ↔
      ∃ before cmd after, calls = before ++ .get cmd :: after ∧
        (processGet (serve s before) cmd ()).2 = [((), response)] := by
  induction calls generalizing s with
  | nil => simp [responses]
  | cons call calls ih =>
    have hcons : response ∈ responses s (call :: calls) ↔
        response ∈ (ServerDispatcher.process s () call).2.map Prod.snd ∨
          response ∈ responses (ServerDispatcher.process s () call).1 calls :=
      List.mem_append
    rw [hcons, ih]
    constructor
    · rintro (hsent | ⟨before, cmd, after, rfl, hreply⟩)
      · cases call with
        | set cmd => cases hsent
        | get cmd =>
          obtain ⟨response', hreply⟩ := processGet_sent s cmd
          rw [ServerDispatcher.process, hreply, List.map_singleton, List.mem_singleton] at hsent
          exact ⟨[], cmd, calls, rfl, by rw [hsent]; exact hreply⟩
      · exact ⟨call :: before, cmd, after, rfl, hreply⟩
    · rintro ⟨before, cmd, after, hcalls, hreply⟩
      cases before with
      | nil =>
        obtain ⟨rfl, rfl⟩ := List.cons.inj hcalls
        refine .inl ?_
        rw [ServerDispatcher.process, show processGet s cmd () = processGet (serve s []) cmd () from rfl,
          hreply]
        exact List.mem_singleton_self response
      | cons first before =>
        obtain ⟨rfl, rfl⟩ := List.cons.inj hcalls
        exact .inr ⟨before, cmd, after, rfl, hreply⟩

theorem lastValue_history (key : Bytes) (last : Option SetCommand) (calls : List ServerCall) :
    lastValue key (last.map SetCommand.value) (Operation.history (calls.map (Operation.process ()))) =
      (lastSet key last calls).map SetCommand.value := by
  induction calls generalizing last with
  | nil => rfl
  | cons call calls ih =>
    cases call with
    | get cmd => exact ih last
    | set cmd =>
      rw [lastSet, ← ih]
      split
      · next hkey => simp [Operation.history, Operation.abstract, lastValue, hkey]
      · next hkey => simp [Operation.history, Operation.abstract, lastValue, hkey]

theorem lastSet_key {key : Bytes} {last : Option SetCommand} {calls : List ServerCall} {cmd : SetCommand}
    (hlast : ∀ cmd, last = some cmd → cmd.key = key) (h : lastSet key last calls = some cmd) :
    cmd.key = key := by
  induction calls generalizing last with
  | nil => exact hlast cmd h
  | cons call calls ih =>
    cases call with
    | get cmd' => exact ih hlast h
    | set cmd' =>
      refine ih (fun cmd'' heq => ?_) h
      split at heq
      · next hkey => exact Option.some.inj heq ▸ hkey
      · exact hlast cmd'' heq

/-- The reply to a GET has its key, and the value of the last SET of that key if there is one. -/
theorem reply_receivable_iff {loader : Loader} {s₀ : Store} (hopen : Store.openFile loader none = .ok s₀)
    {before : List ServerCall} {cmd : GetCommand} {response : GetCommandResponse}
    (hreply : (processGet (serve s₀ before) cmd ()).2 = [((), response)]) :
    response.Receivable ↔ ReplyFits before cmd := by
  have hempty : s₀.content = fun _ => none := by
    cases hopen
    rfl
  have hrefines := (Refines.of_loaded (Store.openFile_loaded hopen)).run (before.map (Operation.process ()))
  have hexpected : response =
      replyTo s₀.content (Operation.history (before.map (Operation.process ()))) cmd :=
    congrArg Prod.snd (List.singleton_inj.1 (hreply.symm.trans (hrefines.reply () cmd)))
  have hlast := lastValue_history cmd.key none before
  rw [receivable_iff, hexpected, replyTo, ReplyFits, hempty]
  rw [Option.map_none] at hlast
  cases hset : lastSet cmd.key none before with
  | none =>
    rw [hset] at hlast
    simp only [hlast, Option.map_none, getFrame_length, GetCommandResponse.ofGet, notFound, List.length_cons,
      List.length_nil, maxMessageSize]
    omega
  | some last =>
    have hkey := lastSet_key (by simp) hset
    rw [hset] at hlast
    simp only [hlast, Option.map_some, setFrame_length, GetCommandResponse.ofGet, maxMessageSize, hkey]
    omega

/-- **From an empty store, every response to a sequence of accepted frames is
short enough to be received exactly when each GET comes after commands that
leave room for its reply.** -/
theorem responses_receivable_iff {loader : Loader} {s₀ : Store} (hopen : Store.openFile loader none = .ok s₀)
    (calls : List ServerCall) :
    (∀ response ∈ responses s₀ calls, response.Receivable) ↔
      ∀ before cmd after, calls = before ++ .get cmd :: after → ReplyFits before cmd := by
  constructor
  · intro h before cmd after hcalls
    obtain ⟨response, hreply⟩ := processGet_sent (serve s₀ before) cmd
    exact (reply_receivable_iff hopen hreply).1 (h response
      (mem_responses.2 ⟨before, cmd, after, hcalls, hreply⟩))
  · intro h response hmem
    obtain ⟨before, cmd, after, hcalls, hreply⟩ := mem_responses.1 hmem
    exact (reply_receivable_iff hopen hreply).2 (h before cmd after hcalls)

theorem responses_receivable_small :
    (∀ response ∈ responses { root := ⟨1, ∅⟩ } [.set ⟨[107], [1]⟩, .get ⟨[107], 1⟩], response.Receivable) ↔
      ∀ before cmd after, [.set ⟨[107], [1]⟩, .get ⟨[107], 1⟩] = before ++ .get cmd :: after →
        ReplyFits before cmd :=
  responses_receivable_iff (show Store.openFile {} none = .ok _ from rfl) _

/-- A SET of a key and a GET of the key. -/
def setThenGet (value : Bytes) : List ServerCall := [.set ⟨[107], value⟩, .get ⟨[107], 1⟩]

theorem setThenGet_accepted {value : Bytes} (hlen : value.length + 14 ≤ maxMessageSize) :
    ∀ call ∈ setThenGet value, call.Accepted := by
  intro call hmem
  have hmax : maxMessageSize = 1048576 := rfl
  simp only [setThenGet, List.mem_cons, List.not_mem_nil, or_false] at hmem
  rcases hmem with rfl | rfl
  · refine ⟨⟨⟨show 1 < 2 ^ 32 by decide, show value.length < 2 ^ 32 by omega⟩, trivial⟩, ?_⟩
    rw [ServerCall.frame, setFrame_length]
    simp only [List.length_cons, List.length_nil]
    omega
  · refine ⟨⟨show 1 < 2 ^ 32 by decide, show (1 : UInt16) ≠ 0 by decide⟩, ?_⟩
    rw [ServerCall.frame, getFrame_length, hmax]
    simp only [List.length_cons, List.length_nil]
    omega

theorem setThenGet_replyFits {value : Bytes} :
    ReplyFits [.set ⟨[107], value⟩] ⟨[107], 1⟩ ↔ value.length + 32 ≤ maxMessageSize := by
  have hmax : maxMessageSize = 1048576 := rfl
  simp only [ReplyFits, lastSet, if_true, setFrame_length, List.length_cons, List.length_nil]
  omega

/-- A value set with a frame of the largest length accepted comes back in a message that is too long. -/
theorem responses_not_receivable :
    ¬ ∀ (loader : Loader) (s₀ : Store) (calls : List ServerCall), Store.openFile loader none = .ok s₀ →
      (∀ call ∈ calls, call.Accepted) → ∀ response ∈ responses s₀ calls, response.Receivable := by
  intro h
  obtain ⟨value, hvalue⟩ : ∃ value : Bytes, value.length = maxMessageSize - 14 :=
    ⟨List.replicate (maxMessageSize - 14) 0, List.length_replicate⟩
  have hmax : maxMessageSize = 1048576 := rfl
  have hopen : Store.openFile {} none = .ok { root := ⟨1, ∅⟩ } := rfl
  obtain ⟨response, hreply⟩ := processGet_sent (serve { root := ⟨1, ∅⟩ } [.set ⟨[107], value⟩]) ⟨[107], 1⟩
  have hreceivable := h {} _ (setThenGet value) hopen (setThenGet_accepted (by omega)) response
    (mem_responses.2 ⟨[.set ⟨[107], value⟩], ⟨[107], 1⟩, [], rfl, hreply⟩)
  have hfits := setThenGet_replyFits.1 ((reply_receivable_iff hopen hreply).1 hreceivable)
  omega

end ConfigServer
