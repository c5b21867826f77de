/-
A store shared by any number of threads: calls of `set`, GETs being processed
and one flush at a time, one atomic step each. A `set` runs the loop of
`atom::update`: it loads the root, runs the update function (which works on
the entry in place, in two steps: it moves the value in, then counts the
write), and publishes its version of the map if the root is still the one it
loaded; else it starts again, with the argument it has moved out of. A string
is assigned and copied in one step. The flush is one that meets no I/O error.

The sizes of a 64-bit machine are guards: a string that exists is shorter than
`2 ^ 64`, and `make_shared` returns while there are addresses left.
-/
import ConfigServer.Lib.Threads
import ConfigServer.Lib.Runs
import ConfigServer.StoreFileFacts

namespace ConfigServer

open LittleEndian

/-! ## set -/

/-- Where a call of `set` is: what it does next is the first step not yet done. -/
inductive SetPc
  | entered
  | loaded (oldv : Box Map)
  /-- The value has been moved into the entry `e`, which the function found or made. -/
  | assigned (oldv : Box Map) (e : EntryPtr)
  /-- The function has returned `oldv` with the key bound to `e`. -/
  | applied (oldv : Box Map) (e : EntryPtr)
  | published
  | countedTotal
  | countedWindow
  | done
deriving DecidableEq

structure SetCall where
  key : Bytes
  /-- The argument `set` was called with. -/
  given : Bytes
  /-- The captured argument now. -/
  value : Bytes
  pc : SetPc
deriving DecidableEq

def SetCall.step (s : Store) (c : SetCall) : Option (Store × SetCall) :=
  match c.pc with
  | .entered => some (s, { c with pc := .loaded s.root })
  | .loaded oldv =>
    let (e, s) := s.findOrCreate oldv.value c.key
    if s.next < SizeT.modulus then
      some (s.assignValue e c.value, { c with value := [], pc := .assigned oldv e })
    else
      none
  | .assigned oldv e => some (s.countWrite e, { c with pc := .applied oldv e })
  | .applied oldv e =>
    let newv := oldv.value.insert c.key e
    match s.root.publish oldv newv with
    | some root => some ({ s with root }, { c with pc := .published })
    | none => some (s, { c with pc := .entered })
  | .published => some ({ s with stats := s.stats.addSetTotal }, { c with pc := .countedTotal })
  | .countedTotal => some ({ s with stats := s.stats.addSetWindow }, { c with pc := .countedWindow })
  | .countedWindow => some ({ s with dirty := true }, { c with pc := .done })
  | .done => none

/-! ## Processing a GET -/

inductive GetPc
  | entered
  | loaded (snap : Box Map)
  | absent
  | found (e : EntryPtr)
  | incremented (e : EntryPtr)
  | countedTotal (e : EntryPtr)
  /-- `get` has returned the entry. -/
  | countedWindow (e : EntryPtr)
  | readReads (e : EntryPtr) (reads : UInt64)
  | readWrites (e : EntryPtr) (reads writes : UInt64)
  | answered (e : EntryPtr) (answer : Entry)
deriving DecidableEq

structure GetCall where
  key : Bytes
  pc : GetPc
deriving DecidableEq

def GetCall.step (s : Store) (c : GetCall) : Option (Store × GetCall) :=
  match c.pc with
  | .entered => some (s, { c with pc := .loaded s.root })
  | .loaded snap =>
    match snap.value.lookup c.key with
    | none => some (s, { c with pc := .absent })
    | some e => some (s, { c with pc := .found e })
  | .found e => some (s.countRead e, { c with pc := .incremented e })
  | .incremented e => some ({ s with stats := s.stats.addGetTotal }, { c with pc := .countedTotal e })
  | .countedTotal e => some ({ s with stats := s.stats.addGetWindow }, { c with pc := .countedWindow e })
  | .countedWindow e => some (s, { c with pc := .readReads e (s.heap e).reads })
  | .readReads e reads => some (s, { c with pc := .readWrites e reads (s.heap e).writes })
  | .readWrites e reads writes => some (s, { c with pc := .answered e ⟨(s.heap e).value, reads, writes⟩ })
  | .absent => none
  | .answered _ _ => none

inductive Call
  | set (c : SetCall)
  | get (c : GetCall)
deriving DecidableEq

def Call.step (s : Store) : Call → Option (Store × Call)
  | .set c => (c.step s).map fun (s, c) => (s, .set c)
  | .get c => (c.step s).map fun (s, c) => (s, .get c)

/-! ## flush_if_dirty -/

/-- Where the flush is, with the bindings of its snapshot visited and still to be visited. -/
inductive FlushPc
  | idle
  | exchanged
  | opened
  | next (visited todo : List Binding)
  /-- The iteration has reached `pair`. -/
  | keyed (visited : List Binding) (pair : Binding) (todo : List Binding)
  /-- The size of its value has been read, and all but the value written. -/
  | sized (visited : List Binding) (pair : Binding) (valueSize : Nat) (todo : List Binding)
deriving DecidableEq

structure World where
  store : Store
  calls : List Call := []
  flush : FlushPc := .idle

inductive Action
  | callSet (key value : Bytes)
  | callGet (key : Bytes)
  /-- Call `i` takes its next step. -/
  | step (i : Nat)
  | flushExchange
  | flushOpen
  | flushLoad (order : List Binding)
  | flushKey
  | flushSize
  /-- `value.data()` is written; `junk` are the bytes after its end, if the value has become shorter. -/
  | flushData (junk : Bytes)
  | flushFinish
deriving DecidableEq

namespace World

/-- `out.write` of the flush. -/
def write (w : World) (bytes : Bytes) : World :=
  { w with store := { w.store with file := w.store.file.map (· ++ bytes) } }

def step (w : World) : Action → Option World
  | .callSet key value =>
    if key.length < SizeT.modulus ∧ value.length < SizeT.modulus then
      some { w with calls := w.calls ++ [.set ⟨key, value, value, .entered⟩] }
    else
      none
  | .callGet key => some { w with calls := w.calls ++ [.get ⟨key, .entered⟩] }
  | .step i =>
    match w.calls[i]? with
    | none => none
    | some call => (call.step w.store).map fun (s, call) => { w with store := s, calls := w.calls.set i call }
  | .flushExchange =>
    match w.flush with
    | .idle =>
      if w.store.dirty then
        some { w with store := { w.store with dirty := false }, flush := .exchanged }
      else
        some w
    | _ => none
  | .flushOpen =>
    match w.flush with
    | .exchanged => some { w with store := { w.store with file := some [] }, flush := .opened }
    | _ => none
  | .flushLoad order =>
    match w.flush with
    | .opened =>
      let data := w.store.root.value
      if data.Enumerates order then
        some { w.write (leBytes 8 data.size) with flush := .next [] order }
      else
        none
    | _ => none
  | .flushKey =>
    match w.flush with
    | .next visited (pair :: todo) => some { w with flush := .keyed visited pair todo }
    | _ => none
  | .flushSize =>
    match w.flush with
    | .keyed visited pair todo =>
      let valueSize := (w.store.heap pair.2).value.length
      some { w.write (leBytes 8 pair.1.length ++ (pair.1 ++ leBytes 8 valueSize)) with
        flush := .sized visited pair valueSize todo }
    | _ => none
  | .flushData junk =>
    match w.flush with
    | .sized visited pair valueSize todo =>
      let value := (w.store.heap pair.2).value
      if junk.length = valueSize - value.length then
        some { w.write (value.take valueSize ++ junk) with flush := .next (visited ++ [pair]) todo }
      else
        none
    | _ => none
  | .flushFinish =>
    match w.flush with
    | .next _ [] => some { w with flush := .idle }
    | _ => none

end World

end ConfigServer
