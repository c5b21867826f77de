/-
`config_store` and the part of `server_dispatcher` that calls it, one
operation at a time. The persistent map of `immer` is a finite map from keys
to entry pointers; the entries live in a heap that every version of the map
shares, and the operations change them in place. The file named by `file_` is
part of the state: its bytes, or `none` when there is no such file.
-/
import Mathlib.Data.Finmap
import ConfigServer.Lib.Atom
import ConfigServer.Protocol

namespace ConfigServer

open LittleEndian

structure Entry where
  value : Bytes := []
  reads : UInt64 := 0
  writes : UInt64 := 0
deriving DecidableEq

/-- An `entry_ptr`: the place of an entry in the heap. -/
abbrev EntryPtr := Nat

/-- The `immer::map<std::string, entry_ptr>`. -/
abbrev Map := Finmap fun _ : Bytes => EntryPtr

/-- What iterating over a map visits: a key and its pointer. -/
abbrev Binding := Σ _ : Bytes, EntryPtr

namespace Map

def size (m : Map) : Nat := m.entries.card

/-- Iterating over `m` can visit its bindings in this order. -/
def Enumerates (order : List Binding) (m : Map) : Prop := (order : Multiset Binding) = m.entries

instance (order : List Binding) (m : Map) : Decidable (Enumerates order m) :=
  inferInstanceAs (Decidable ((order : Multiset Binding) = m.entries))

end Map

structure Counters where
  getTotal : UInt64 := 0
  setTotal : UInt64 := 0
  getWindow : UInt64 := 0
  setWindow : UInt64 := 0
deriving DecidableEq

structure Store where
  heap : EntryPtr → Entry := fun _ => {}
  /-- The pointer the next `make_shared<entry>` returns. -/
  next : EntryPtr := 0
  root : Box Map := ⟨0, ∅⟩
  dirty : Bool := false
  stats : Counters := {}
  file : Option Bytes := none

namespace Counters

def addGetTotal (c : Counters) : Counters := { c with getTotal := c.getTotal + 1 }
def addGetWindow (c : Counters) : Counters := { c with getWindow := c.getWindow + 1 }
def addSetTotal (c : Counters) : Counters := { c with setTotal := c.setTotal + 1 }
def addSetWindow (c : Counters) : Counters := { c with setWindow := c.setWindow + 1 }

def addGet (c : Counters) : Counters := c.addGetTotal.addGetWindow
def addSet (c : Counters) : Counters := c.addSetTotal.addSetWindow

end Counters

namespace Store

/-- An in-place change of the entry at `e`. -/
def modify (s : Store) (e : EntryPtr) (f : Entry → Entry) : Store :=
  { s with heap := Function.update s.heap e (f (s.heap e)) }

/-- `std::make_shared<entry>()`. -/
def makeShared (s : Store) : EntryPtr × Store :=
  (s.next, { s with heap := Function.update s.heap s.next {}, next := s.next + 1 })

def assignValue (s : Store) (e : EntryPtr) (value : Bytes) : Store := s.modify e fun en => { en with value }

def countWrite (s : Store) (e : EntryPtr) : Store := s.modify e fun en => { en with writes := en.writes + 1 }

def countRead (s : Store) (e : EntryPtr) : Store := s.modify e fun en => { en with reads := en.reads + 1 }

/-! ## get and set -/

/-- The entry the function passed to `update` works on: the one `m` has for the key, or a new one. -/
def findOrCreate (s : Store) (m : Map) (key : Bytes) : EntryPtr × Store :=
  match m.lookup key with
  | some e => (e, s)
  | none => s.makeShared

/-- The function `set` passes to `update`, on a version `m` of the map. It is
given the captured `value` and moves it out, so it leaves an empty string there. -/
def setUpdate (s : Store) (m : Map) (key value : Bytes) : Map × Bytes × Store :=
  let (e, s) := s.findOrCreate m key
  let s := s.assignValue e value
  let s := s.countWrite e
  (m.insert key e, [], s)

/-- `set` with nothing else running: the root is still the one it loaded when it publishes. -/
def set (s : Store) (key value : Bytes) : Store :=
  let oldv := s.root
  let (newv, _, s) := s.setUpdate oldv.value key value
  let s := { s with root := ⟨oldv.impl + 1, newv⟩ }
  { s with stats := s.stats.addSet, dirty := true }

def get (s : Store) (key : Bytes) : Option EntryPtr × Store :=
  let snap := s.root
  match snap.value.lookup key with
  | none => (none, s)
  | some e =>
    let s := s.countRead e
    (some e, { s with stats := s.stats.addGet })

end Store

/-! ## server_dispatcher -/

namespace ServerDispatcher

/-- The text a GET of an absent key is answered with: "not found". -/
def notFound : Bytes := [110, 111, 116, 32, 102, 111, 117, 110, 100]

variable {Socket : Type*}

/-- `process(get_command_ptr, socket)`: the store after it and what it sends on which socket. -/
def processGet (s : Store) (cmd : GetCommand) (socket : Socket) :
    Store × List (Socket × GetCommandResponse) :=
  let (opt, s) := s.get cmd.key
  let response :=
    match opt with
    | none => .ofGet cmd notFound 0 0
    | some e => .ofGet cmd (s.heap e).value (s.heap e).reads (s.heap e).writes
  (s, [(socket, response)])

def processSet (s : Store) (cmd : SetCommand) (_socket : Socket) :
    Store × List (Socket × GetCommandResponse) :=
  (s.set cmd.key cmd.value, [])

def process (s : Store) (socket : Socket) : ServerCall → Store × List (Socket × GetCommandResponse)
  | .get cmd => processGet s cmd socket
  | .set cmd => processSet s cmd socket

end ServerDispatcher

end ConfigServer
