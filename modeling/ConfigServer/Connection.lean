/-
The strand of `t_connection` (`connection.h`): the tasks posted on it (`read`,
`send`, `send_next`, `close`), the queue of serialized messages, the writes in
flight, the idle timer, and the events outside the strand that post tasks.

Strand tasks run one at a time in the order they were posted. Completion
handlers and timer handlers run outside the strand; what they do there is to
post a task, and the read handler also starts the next read. A write that has
succeeded is delivered as a success even after `close`. What the code leaves
undefined (`pop` and `front` of an empty `std::queue`) is a fault, and a
faulty connection takes no further step.
-/
import ConfigServer.Lib.Runs
import ConfigServer.Protocol

namespace ConfigServer

/-- A `base_command_ptr`: a command of any class. -/
inductive Message
  | get (cmd : GetCommand)
  | set (cmd : SetCommand)
  | getResponse (cmd : GetCommandResponse)
deriving DecidableEq

def Message.serialize : Message → Except String MemoryWriter
  | .get cmd => cmd.serialize
  | .set cmd => cmd.serialize
  | .getResponse cmd => cmd.serialize

/-- Why a `close` task was posted. An idle one remembers how many times the
timer had been reset when it expired. -/
inductive CloseCause
  | read
  | write
  | idle (resets : Nat)
deriving DecidableEq

inductive Task
  | read
  | send (cmd : Message)
  | sendNext
  | close (cause : CloseCause)
deriving DecidableEq

inductive Fault
  | popEmpty
  | frontEmpty
deriving DecidableEq

/-- `idle_timer_`: whether a wait is outstanding, the waits that expired and
whose handler has not run (each with the resets before it), and all resets. -/
structure IdleTimer where
  armed : Bool := false
  queued : List Nat := []
  resets : Nat := 0
deriving DecidableEq

structure Connection where
  isOpen : Bool := true
  sendQueue : List Bytes := []
  strand : List Task := []
  /-- How many `async_read_some` have not completed. -/
  reading : Nat := 0
  inFlight : List Bytes := []
  /-- Every buffer handed to `async_write`, in order. -/
  written : List Bytes := []
  timer : IdleTimer := {}
  fault : Option Fault := none
deriving DecidableEq

namespace Connection

def post (c : Connection) (task : Task) : Connection := { c with strand := c.strand ++ [task] }

/-- `reset_idle_timer`: the outstanding wait is aborted and a new one started.
A wait that has expired already keeps its queued handler. -/
def resetIdleTimer (c : Connection) : Connection :=
  { c with timer := { c.timer with armed := true, resets := c.timer.resets + 1 } }

def doWrite (c : Connection) : Connection :=
  match c.sendQueue with
  | [] => { c with fault := some .frontEmpty }
  | data :: _ =>
    let c := c.resetIdleTimer
    { c with inFlight := c.inFlight ++ [data], written := c.written ++ [data] }

/-- The task `send` posts. When `serialize` throws, the exception leaves
`io_context::run` and the process ends: there is no state after it. -/
def runSend (c : Connection) (cmd : Message) : Option Connection :=
  if !c.isOpen then
    some c
  else
    let c := c.resetIdleTimer
    let writeInProgress := !c.sendQueue.isEmpty
    match cmd.serialize with
    | .error _ => none
    | .ok writer =>
      let c := { c with sendQueue := c.sendQueue ++ [writer.buffer] }
      some (if !writeInProgress then c.doWrite else c)

def sendNext (c : Connection) : Connection :=
  match c.sendQueue with
  | [] => { c with fault := some .popEmpty }
  | _ :: rest =>
    let c := { c with sendQueue := rest }
    if !rest.isEmpty then c.doWrite else c

def close (c : Connection) : Connection :=
  if !c.isOpen then c
  else { c with isOpen := false, timer := { c.timer with armed := false }, sendQueue := [] }

/-- `do_read`, without what it receives. -/
def doRead (c : Connection) : Connection :=
  if !c.isOpen then
    c
  else
    let c := c.resetIdleTimer
    { c with reading := c.reading + 1 }

def runTask (c : Connection) : Task → Option Connection
  | .read => some c.doRead
  | .send cmd => c.runSend cmd
  | .sendNext => some c.sendNext
  | .close _ => some c.close

inductive Event
  /-- The session starts reading. -/
  | readCall
  /-- `send` is called, on any thread. -/
  | sendCall (cmd : Message)
  /-- The strand runs its oldest task. -/
  | run
  /-- The `i`-th write in flight completes: with success, an error, or aborted. -/
  | writeDone (i : Nat)
  | writeFailed (i : Nat)
  | writeAborted (i : Nat)
  /-- A read completes. Its handler has parsed the frames and reads on. -/
  | readDone
  /-- Its handler meets a bad frame or a read error. -/
  | readFailed
  /-- It meets the end of the stream, or was aborted. -/
  | readEnded
  | timerExpired
  | timerHandler
deriving DecidableEq

/-- The connection when the handler of a read runs. -/
def completeRead (c : Connection) : Option Connection :=
  if 0 < c.reading then some { c with reading := c.reading - 1 } else none

/-- The connection after the `i`-th write in flight has completed. -/
def complete (c : Connection) (i : Nat) (task : Option Task) : Option Connection :=
  if i < c.inFlight.length then
    some { c with inFlight := c.inFlight.eraseIdx i, strand := c.strand ++ task.toList }
  else
    none

def step (c : Connection) (event : Event) : Option Connection :=
  if c.fault.isSome then none
  else
    match event with
    | .readCall => some (c.post .read)
    | .sendCall cmd => some (c.post (.send cmd))
    | .run =>
      match c.strand with
      | [] => none
      | task :: rest => { c with strand := rest }.runTask task
    | .writeDone i => c.complete i (some .sendNext)
    | .writeFailed i => c.complete i (some (.close .write))
    | .writeAborted i => c.complete i none
    | .readDone => c.completeRead.map doRead
    | .readFailed => c.completeRead.map fun c => c.post (.close .read)
    | .readEnded => c.completeRead
    | .timerExpired =>
      if c.timer.armed then
        some { c with timer := { c.timer with armed := false, queued := c.timer.queued ++ [c.timer.resets] } }
      else
        none
    | .timerHandler =>
      match c.timer.queued with
      | [] => none
      | resets :: rest =>
        let c := { c with timer := { c.timer with queued := rest } }
        some (c.post (.close (.idle resets)))

end Connection

end ConfigServer
