/-
A client's session on the server (`server.cpp`, `connection.h`,
`server_dispatcher.cpp`): the strand of its connection, the read handlers
running outside of it, and the store its dispatcher works on. A handler runs
the frame loop of `do_read`; for each frame the dispatcher calls the store, and
once the call is over it sends the response of a GET. The store is shared:
calls of other sessions, and the flush, take their steps in between.

Who keeps the session and its connection alive is left to `Lifetime`: a read
does, from its `read` task on until its handler returns, and so does a posted
`send_next` or `close`. So nothing is destroyed before the end of the stream is
seen or a `close` has run.

`received`, `calls` and `replies` are not in the code: they record what was
read, what was dispatched and what `process` has given to `send`.
-/
import ConfigServer.Concurrent
import ConfigServer.Connection
import ConfigServer.Receive

namespace ConfigServer

open ServerDispatcher

/-- A handler of a read, in its loop over `n` valid bytes. -/
structure Handler where
  n : Nat
  /-- Where the loop goes on. -/
  offset : Nat
  /-- The command in the dispatcher, and which call on the store `process` has made. -/
  inside : Option (ServerCall × Nat) := none
deriving DecidableEq

structure Session where
  conn : Connection
  buffer : Buffer := fun _ => 0
  unparsedBytes : Nat := 0
  /-- The handlers of reads that have completed and have not returned. -/
  handlers : List Handler := []
  world : World
  received : Bytes := []
  calls : List ServerCall := []
  replies : List GetCommandResponse := []

/-- The call on the store that `process` makes. -/
def ServerCall.action : ServerCall → Action
  | .get cmd => .callGet cmd.key
  | .set cmd => .callSet cmd.key cmd.value

/-- The event is none of those the session itself brings about: that it starts
reading, that its dispatcher sends, and that a read succeeds. -/
def Connection.Event.outside : Connection.Event → Bool
  | .readCall => false
  | .sendCall _ => false
  | .readDone => false
  | _ => true

namespace Session

/-- `session::start`, on a store others may be working on. -/
def start (world : World) : Session where
  conn := ({} : Connection).post .read
  world := world

inductive Action
  | strand (event : Connection.Event)
  /-- A read of `chunk` completes, and its handler starts. -/
  | receive (chunk : Bytes)
  /-- Handler `i` runs its loop up to the next call of the dispatcher, or to its end. -/
  | iterate (i : Nat)
  /-- The call on the store that handler `i` has made is over, and `process` returns. -/
  | respond (i : Nat)
  /-- A call on the store takes a step, or another one starts, or the flush goes on. -/
  | store (action : ConfigServer.Action)

def receive (s : Session) (chunk : Bytes) : Option Session :=
  if chunk.length ≤ SizeT.sub bufferSize s.unparsedBytes then
    s.conn.completeRead.map fun conn =>
      let n := SizeT.add chunk.length s.unparsedBytes
      { s with
        conn
        buffer := s.buffer.write s.unparsedBytes chunk
        handlers := s.handlers ++ [{ n, offset := 0 }]
        received := s.received ++ chunk }
  else
    none

/-- What the handler does behind its loop: it keeps the bytes from `offset` on for the next read. -/
def carryOver (s : Session) (n offset : Nat) : Session :=
  if offset < n then
    { s with buffer := s.buffer.memmove 0 offset (SizeT.sub n offset), unparsedBytes := SizeT.sub n offset }
  else
    { s with unparsedBytes := 0 }

def iterate (s : Session) (i : Nat) : Option Session :=
  match s.handlers[i]? with
  | some ⟨n, offset, none⟩ =>
    match Receiver.frameStep readServer s.buffer n offset with
    | .stopped => some { s.carryOver n offset with conn := s.conn.doRead, handlers := s.handlers.eraseIdx i }
    | .failed _ => some { s with conn := s.conn.post (.close .read), handlers := s.handlers.eraseIdx i }
    | .advance call offset =>
      (s.world.step call.action).map fun world =>
        { s with
          handlers := s.handlers.set i ⟨n, offset, some (call, s.world.calls.length)⟩
          world
          calls := s.calls ++ [call] }
  | _ => none

/-- `socket->send(response)`. -/
def send (s : Session) (response : GetCommandResponse) : Session :=
  { s with conn := s.conn.post (.send (.getResponse response)), replies := s.replies ++ [response] }

def respond (s : Session) (i : Nat) : Option Session :=
  match s.handlers[i]? with
  | some ⟨n, offset, some (call, j)⟩ =>
    let back := { s with handlers := s.handlers.set i { n, offset } }
    match call, s.world.calls[j]? with
    | .get cmd, some (.get ⟨_, .absent⟩) => some (back.send (.ofGet cmd notFound 0 0))
    | .get cmd, some (.get ⟨_, .answered _ entry⟩) =>
      some (back.send (.ofGet cmd entry.value entry.reads entry.writes))
    | .set _, some (.set ⟨_, _, _, .done⟩) => some back
    | _, _ => none
  | _ => none

def step (s : Session) (action : Action) : Option Session :=
  if s.conn.fault.isSome then none
  else
    match action with
    | .strand event => if event.outside then (s.conn.step event).map fun conn => { s with conn } else none
    | .receive chunk => s.receive chunk
    | .iterate i => s.iterate i
    | .respond i => s.respond i
    | .store action => (s.world.step action).map fun world => { s with world }

end Session

end ConfigServer
