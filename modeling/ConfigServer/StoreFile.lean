/-
The file of a store: `flush_if_dirty`, which writes the number of keys and
then one record for each, and `load_into`, which reads them back when the
store is opened.

The streams are modelled with the ways they fail. An `ofstream` may not open
(a failure leaves the file as it was), and writing may fail after any number
of bytes. An `ifstream` that runs short stores the bytes there are and is in
the fail state from then on, where it stores nothing; `load_into` does not
look at that state, and its size variables start out with whatever was in
their place. What it finds there, and which strings can be allocated, is the
`Loader`.
-/
import ConfigServer.Store

namespace ConfigServer

open LittleEndian

/-! ## Writing -/

/-- What the file system does to one flush: whether the file opens for writing,
and how many bytes it takes before a write fails (`none`: no write fails). -/
structure Disk where
  opens : Bool := true
  room : Option Nat := none

structure OFStream where
  contents : Bytes := []
  room : Option Nat := none
  fail : Bool := false

def OFStream.write (out : OFStream) (bytes : Bytes) : OFStream :=
  if out.fail then
    out
  else
    match out.room with
    | none => { out with contents := out.contents ++ bytes }
    | some room =>
      { contents := out.contents ++ bytes.take room
        room := some (room - bytes.length)
        fail := room < bytes.length }

namespace Store

def writePair (s : Store) (out : OFStream) (pair : Binding) : OFStream :=
  let keySize := pair.1.length
  let valueSize := (s.heap pair.2).value.length
  let out := out.write (leBytes 8 keySize)
  let out := out.write pair.1
  let out := out.write (leBytes 8 valueSize)
  out.write (s.heap pair.2).value

/-- `flush_if_dirty`, where iterating over the snapshot goes in the order given. -/
def flushIfDirty (s : Store) (order : List Binding) (disk : Disk) : Except String Bool × Store :=
  if !s.dirty then
    (.ok false, s)
  else
    let s := { s with dirty := false }
    if !disk.opens then
      (.error "Failed to open file for writing", s)
    else
      let data := s.root.value
      let out : OFStream := { room := disk.room }
      let out := out.write (leBytes 8 data.size)
      let out := order.foldl s.writePair out
      let s := { s with file := some out.contents }
      if out.fail then
        (.error "Failed to write data to file", s)
      else
        (.ok true, s)

end Store

/-! ## Reading -/

/-- What `load_into` meets besides the file: the strings that can be allocated,
and what is in `size`, and in `key_size` and `value_size` of each iteration, before they are read. -/
structure Loader where
  allocates : Nat → Bool := fun _ => true
  size : Nat := 0
  sizes : Nat → Nat × Nat := fun _ => (0, 0)

structure IFStream where
  rest : Bytes
  fail : Bool := false
deriving DecidableEq

/-- The constructor of a `std::string` of a given length throws. -/
inductive LoadError
  | badAlloc
deriving DecidableEq

abbrev LoadM := StateT IFStream (Except LoadError)

namespace LoadM

/-- `in.read` of `n` bytes: the bytes it stores. -/
def read (n : Nat) : LoadM Bytes := do
  let stream ← get
  if stream.fail then
    return []
  else if stream.rest.length < n then
    set (⟨[], true⟩ : IFStream)
    return stream.rest
  else
    set (⟨stream.rest.drop n, false⟩ : IFStream)
    return stream.rest.take n

/-- The variable read into keeps its bytes after the ones stored. -/
def overlay (stored old : Bytes) : Bytes := stored ++ old.drop stored.length

def readSize (old : Nat) : LoadM Nat := do
  let stored ← read 8
  return leNat (overlay stored (leBytes 8 old))

def readString (loader : Loader) (n : Nat) : LoadM Bytes := do
  if !loader.allocates n then
    throw .badAlloc
  else
    let stored ← read n
    return overlay stored (List.replicate n 0)

/-- One iteration of the loop, up to the construction of the entry. -/
def readPair (loader : Loader) (i : Nat) : LoadM (Bytes × Bytes) := do
  let keySize ← readSize (loader.sizes i).1
  let key ← readString loader keySize
  let valueSize ← readSize (loader.sizes i).2
  let value ← readString loader valueSize
  return (key, value)

/-- The loop from iteration `i` on, with `n` iterations to go. -/
def loadLoop (loader : Loader) : Nat → Nat → Map × Store → LoadM (Map × Store)
  | 0, _, state => return state
  | n + 1, i, (t, s) => do
    let (key, value) ← readPair loader i
    let (e, s) := s.makeShared
    let s := s.assignValue e value
    loadLoop loader n (i + 1) (t.insert key e, s)

def loadPairs (loader : Loader) (state : Map × Store) : LoadM (Map × Store) := do
  let size ← readSize loader.size
  loadLoop loader size 0 state

end LoadM

namespace Store

def loadInto (loader : Loader) (s : Store) (m : Map) : Except LoadError (Map × Store) :=
  match s.file with
  | none => .ok (m, s)
  | some bytes => do
    let (state, _) ← (LoadM.loadPairs loader (m, s)).run ⟨bytes, false⟩
    return state

/-- The constructor of a store whose file has these contents. -/
def openFile (loader : Loader) (file : Option Bytes) : Except LoadError Store := do
  let s : Store := { file }
  let oldv := s.root
  let (m, s) ← s.loadInto loader oldv.value
  return { s with root := ⟨oldv.impl + 1, m⟩ }

end Store

end ConfigServer
