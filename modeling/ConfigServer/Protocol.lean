/-
The commands of the protocol (`protocol.h`, `protocol.cpp`): how each class
serializes itself, the size its virtual `get_serialized_size` announces, and
how `::read` parses a frame's payload and picks what the dispatcher gets.

The classes are a hierarchy and `serialize` of each starts with that of its
base, which writes the most derived class's size: the size is a parameter of
the base functions here. The default constructor of `get_command` draws a
fresh id from a counter, which `read` overwrites, so a command read is just
its fields.
-/
import ConfigServer.Memory

namespace ConfigServer

/-- `ecommand_type`. -/
inductive CommandType
  | get
  | set
  | getResponse
deriving DecidableEq

def CommandType.toU8 : CommandType → UInt8
  | .get => 0
  | .set => 1
  | .getResponse => 2

/-! ## base_command and command -/

namespace BaseCommand

def serialize (type : CommandType) (serializedSize : Nat) : MemoryWriter :=
  let writer : MemoryWriter := {}
  let size := UInt32.ofNat serializedSize
  (writer.writeU32 size).writeU8 type.toU8

def getSerializedSize : Nat := SizeT.add 4 1

end BaseCommand

namespace Command

def serialize (type : CommandType) (serializedSize : Nat) (key : Bytes) : Except String MemoryWriter :=
  (BaseCommand.serialize type serializedSize).writeString key

def getSerializedSize (key : Bytes) : Nat :=
  SizeT.add (SizeT.add BaseCommand.getSerializedSize 4) key.length

def read : ReadM Bytes := MemoryReader.readString

end Command

/-! ## set_command -/

structure SetCommand where
  key : Bytes
  value : Bytes
deriving DecidableEq

namespace SetCommand

def getSerializedSize (c : SetCommand) : Nat :=
  SizeT.add (SizeT.add (Command.getSerializedSize c.key) 4) c.value.length

def serialize (c : SetCommand) : Except String MemoryWriter := do
  let writer ← Command.serialize .set c.getSerializedSize c.key
  writer.writeString c.value

def read : ReadM SetCommand := do
  let key ← Command.read
  let value ← MemoryReader.readString
  pure ⟨key, value⟩

end SetCommand

/-! ## get_command -/

structure GetCommand where
  key : Bytes
  requestId : UInt16
deriving DecidableEq

namespace GetCommand

/-- `next_request_id`: its static `id` after the call, which is what it returns. -/
def nextRequestId (id : UInt16) : UInt16 :=
  let id := id + 1
  if id = 0 then 1 else id

def getSerializedSize (c : GetCommand) : Nat := SizeT.add (Command.getSerializedSize c.key) 2

def serialize (c : GetCommand) : Except String MemoryWriter := do
  let writer ← Command.serialize .get c.getSerializedSize c.key
  pure (writer.writeU16 c.requestId)

def read : ReadM GetCommand := do
  let key ← Command.read
  let requestId ← MemoryReader.readU16
  if requestId = 0 then throw "request_id cannot be zero" else pure ⟨key, requestId⟩

end GetCommand

/-! ## get_command_response -/

structure GetCommandResponse where
  key : Bytes
  requestId : UInt16
  reads : UInt64
  writes : UInt64
  value : Bytes
deriving DecidableEq

namespace GetCommandResponse

/-- The constructor from the request answered. -/
def ofGet (cmd : GetCommand) (value : Bytes) (reads writes : UInt64) : GetCommandResponse :=
  { key := cmd.key, requestId := cmd.requestId, value, reads, writes }

def getSerializedSize (c : GetCommandResponse) : Nat :=
  SizeT.add (SizeT.add (SizeT.add (SizeT.add (SizeT.add (Command.getSerializedSize c.key) 2) 8) 8) 4)
    c.value.length

def serialize (c : GetCommandResponse) : Except String MemoryWriter := do
  let writer ← Command.serialize .getResponse c.getSerializedSize c.key
  let writer := writer.writeU16 c.requestId
  let writer := writer.writeU64 c.reads
  let writer := writer.writeU64 c.writes
  writer.writeString c.value

def read : ReadM GetCommandResponse := do
  let key ← Command.read
  let requestId ← MemoryReader.readU16
  let reads ← MemoryReader.readU64
  let writes ← MemoryReader.readU64
  let value ← MemoryReader.readString
  if requestId = 0 then throw "request_id cannot be zero" else pure ⟨key, requestId, reads, writes, value⟩

end GetCommandResponse

/-! ## process and read -/

/-- `process<T>` up to the dispatcher call: read the command, and throw when bytes are left. -/
def process {T : Type} (read : ReadM T) : ReadM T := do
  let result ← read
  let reader ← get
  if !reader.isEnd then
    throw ("truncated buffer: reader.size() = " ++ toString reader.size ++ ", !reader.is_end()")
  else
    pure result

/-- A call of `i_server_dispatcher::process`. -/
inductive ServerCall
  | get (cmd : GetCommand)
  | set (cmd : SetCommand)
deriving DecidableEq

/-- A call of `i_client_dispatcher::process`. -/
abbrev ClientCall := GetCommandResponse

/-- `read` for a server dispatcher: the call it makes, or what it throws. -/
def readServer (buf : Bytes) : Except String ServerCall := do
  let (type, reader) ← MemoryReader.readU8 ⟨buf, 0⟩
  if type = CommandType.get.toU8 then
    let (cmd, _) ← process GetCommand.read reader
    pure (.get cmd)
  else if type = CommandType.set.toU8 then
    let (cmd, _) ← process SetCommand.read reader
    pure (.set cmd)
  else
    throw "unknown command type"

/-- `read` for a client dispatcher. -/
def readClient (buf : Bytes) : Except String ClientCall := do
  let (type, reader) ← MemoryReader.readU8 ⟨buf, 0⟩
  if type ≠ CommandType.getResponse.toU8 then
    throw "expected GET_RESPONSE command"
  else
    let (cmd, _) ← process GetCommandResponse.read reader
    pure cmd

/-- `serialize` of the commands a server reads. -/
def ServerCall.serialize : ServerCall → Except String MemoryWriter
  | .get cmd => cmd.serialize
  | .set cmd => cmd.serialize

end ConfigServer
