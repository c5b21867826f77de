/-
The client (`client.cpp`): `spammer` connects, starts reading and posts a
million commands, which it makes up as it goes; `client_dispatcher` looks at
the responses. One thread runs all of it, so a read handler is one step here,
and the sends are all posted before the strand runs its first task.

`commands` and `received` are not in the code: they record what was posted and
what was read. The responses processed are the calls of the `Receiver`.
-/
import ConfigServer.Session

namespace ConfigServer

/-! ## The commands of a spammer -/

/-- The numbers drawn for one command. -/
structure Draw where
  /-- `std::rand()` in `generate_command`. -/
  roll : Nat
  /-- `std::rand()` in `generate_get_command`. -/
  index : Nat
  /-- What `generate_test` draws for a key and for a value, from 1 to 100; one less here. -/
  key : Fin 100
  value : Fin 100
deriving DecidableEq

structure Spammer where
  allKeys : List Bytes := []
  /-- The static `id` of `next_request_id`. -/
  id : UInt16 := 0
deriving DecidableEq

namespace Spammer

/-- `start_string + std::to_string(n)`. -/
def generateTest (startString : Bytes) (n : Nat) : Bytes :=
  startString ++ (Nat.toDigits 10 n).map fun digit => UInt8.ofNat digit.toNat

/-- Behind "testKey". -/
def generateTestKey (d : Draw) : Bytes := generateTest [116, 101, 115, 116, 75, 101, 121] (d.key + 1)

/-- Behind "testValue". -/
def generateTestValue (d : Draw) : Bytes :=
  generateTest [116, 101, 115, 116, 86, 97, 108, 117, 101] (d.value + 1)

def generateSetCommand (s : Spammer) (d : Draw) : Spammer × ServerCall :=
  let key := generateTestKey d
  ({ s with allKeys := s.allKeys ++ [key] }, .set ⟨key, generateTestValue d⟩)

/-- `std::make_shared<get_command>(key)`. -/
def makeGetCommand (s : Spammer) (key : Bytes) : Spammer × ServerCall :=
  let id := GetCommand.nextRequestId s.id
  ({ s with id }, .get ⟨key, id⟩)

def generateGetCommand (s : Spammer) (d : Draw) : Spammer × ServerCall :=
  if h : s.allKeys = [] then
    s.makeGetCommand (generateTestKey d)
  else
    let index := d.index % s.allKeys.length
    s.makeGetCommand (s.allKeys.get ⟨index, Nat.mod_lt _ (List.length_pos_iff.2 h)⟩)

def generateCommand (s : Spammer) (d : Draw) : Spammer × ServerCall :=
  let isSet := d.roll % 100 = 0
  if isSet then s.generateSetCommand d else s.generateGetCommand d

/-- What the loop of `start_send_loop` sends, one command a draw. -/
def commands (s : Spammer) : List Draw → List ServerCall
  | [] => []
  | d :: draws =>
    let (s, command) := s.generateCommand d
    command :: s.commands draws

end Spammer

/-! ## Its connection -/

def ServerCall.message : ServerCall → Message
  | .get cmd => .get cmd
  | .set cmd => .set cmd

structure Client where
  conn : Connection
  receiver : Receiver ClientCall := {}
  commands : List ServerCall
  received : Bytes := []

namespace Client

/-- `start_send_loop`: it starts reading, and posts these commands. -/
def start (commands : List ServerCall) : Client where
  conn := commands.foldl (fun conn command => conn.post (.send command.message)) (({} : Connection).post .read)
  commands

inductive Action
  | strand (event : Connection.Event)
  /-- A read of `chunk` completes, and its handler runs. -/
  | receive (chunk : Bytes)

/-- The handler reads on, or has the connection closed. -/
def receive (c : Client) (chunk : Bytes) : Option Client :=
  if chunk.length ≤ c.receiver.free then
    c.conn.completeRead.bind fun conn =>
      let receiver := c.receiver.doReadHandler readClient chunk
      let received := c.received ++ chunk
      match receiver.status with
      | .reading => some { c with conn := conn.doRead, receiver, received }
      | .closing _ => some { c with conn := conn.post (.close .read), receiver, received }
      | .looping => none
  else
    none

def step (c : Client) (action : Action) : Option Client :=
  if c.conn.fault.isSome then none
  else
    match action with
    | .strand event => if event.outside then (c.conn.step event).map fun conn => { c with conn } else none
    | .receive chunk => c.receive chunk

end Client

end ConfigServer
