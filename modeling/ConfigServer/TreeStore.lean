/-
`config_store` over the tree of its `immer::map`. Every operation is the one
of `Store` with the tree in place of the finite map: `find` and `set` go down
the tree, a flush writes the elements in the order of its iterator, and
loading sets them through a transient. Reading the finite map off the tree
turns each operation into that of `Store`, and a flush into one in an order in
which iterating over the map can go.
-/
import ConfigServer.ChampIterator
import ConfigServer.StoreRuns

namespace ConfigServer

open Champ LittleEndian

variable {hasher : Bytes → Hash}

structure TreeStore (hasher : Bytes → Hash) where
  heap : EntryPtr → Entry := fun _ => {}
  next : EntryPtr := 0
  root : Box (ImmerMap EntryPtr hasher) := ⟨0, .empty⟩
  dirty : Bool := false
  stats : Counters := {}
  file : Option Bytes := none

namespace TreeStore

/-! ## get and set -/

def modify (t : TreeStore hasher) (e : EntryPtr) (f : Entry → Entry) : TreeStore hasher :=
  { t with heap := Function.update t.heap e (f (t.heap e)) }

def makeShared (t : TreeStore hasher) : EntryPtr × TreeStore hasher :=
  (t.next, { t with heap := Function.update t.heap t.next {}, next := t.next + 1 })

def assignValue (t : TreeStore hasher) (e : EntryPtr) (value : Bytes) : TreeStore hasher :=
  t.modify e fun en => { en with value }

def countWrite (t : TreeStore hasher) (e : EntryPtr) : TreeStore hasher :=
  t.modify e fun en => { en with writes := en.writes + 1 }

def countRead (t : TreeStore hasher) (e : EntryPtr) : TreeStore hasher :=
  t.modify e fun en => { en with reads := en.reads + 1 }

def findOrCreate (t : TreeStore hasher) (m : ImmerMap EntryPtr hasher) (key : Bytes) :
    EntryPtr × TreeStore hasher :=
  match m.find key with
  | some e => (e, t)
  | none => t.makeShared

def setUpdate (t : TreeStore hasher) (m : ImmerMap EntryPtr hasher) (key value : Bytes) :
    ImmerMap EntryPtr hasher × Bytes × TreeStore hasher :=
  let (e, t) := t.findOrCreate m key
  let t := t.assignValue e value
  let t := t.countWrite e
  (m.set key e, [], t)

def set (t : TreeStore hasher) (key value : Bytes) : TreeStore hasher :=
  let oldv := t.root
  let (newv, _, t) := t.setUpdate oldv.value key value
  let t := { t with root := ⟨oldv.impl + 1, newv⟩ }
  { t with stats := t.stats.addSet, dirty := true }

def get (t : TreeStore hasher) (key : Bytes) : Option EntryPtr × TreeStore hasher :=
  let snap := t.root
  match snap.value.find key with
  | none => (none, t)
  | some e =>
    let t := t.countRead e
    (some e, { t with stats := t.stats.addGet })

/-! ## The file -/

def writePair (t : TreeStore hasher) (out : OFStream) (pair : Binding) : OFStream :=
  let keySize := pair.1.length
  let valueSize := (t.heap pair.2).value.length
  let out := out.write (leBytes 8 keySize)
  let out := out.write pair.1
  let out := out.write (leBytes 8 valueSize)
  out.write (t.heap pair.2).value

def flushIfDirty (t : TreeStore hasher) (disk : Disk) : Except String Bool × TreeStore hasher :=
  if !t.dirty then
    (.ok false, t)
  else
    let t := { t with dirty := false }
    if !disk.opens then
      (.error "Failed to open file for writing", t)
    else
      let data := t.root.value
      let out : OFStream := { room := disk.room }
      let out := out.write (leBytes 8 data.size)
      let out := data.visited.foldl t.writePair out
      let t := { t with file := some out.contents }
      if out.fail then
        (.error "Failed to write data to file", t)
      else
        (.ok true, t)

/-- The loop of `load_into` from iteration `i` on, with `n` to go; `canMutate i` is what
`can_mutate` answers in iteration `i`. -/
def loadLoop (loader : Loader) (canMutate : Nat → Nat → Bool) :
    Nat → Nat → ImmerMap EntryPtr hasher × TreeStore hasher → LoadM (ImmerMap EntryPtr hasher × TreeStore hasher)
  | 0, _, state => return state
  | n + 1, i, (m, t) => do
    let (key, value) ← LoadM.readPair loader i
    let (e, t) := t.makeShared
    let t := t.assignValue e value
    loadLoop loader canMutate n (i + 1) (m.setMut (canMutate i) key e, t)

def loadPairs (loader : Loader) (canMutate : Nat → Nat → Bool)
    (state : ImmerMap EntryPtr hasher × TreeStore hasher) :
    LoadM (ImmerMap EntryPtr hasher × TreeStore hasher) := do
  let size ← LoadM.readSize loader.size
  loadLoop loader canMutate size 0 state

def loadInto (loader : Loader) (canMutate : Nat → Nat → Bool) (t : TreeStore hasher)
    (m : ImmerMap EntryPtr hasher) : Except LoadError (ImmerMap EntryPtr hasher × TreeStore hasher) :=
  match t.file with
  | none => .ok (m, t)
  | some bytes => do
    let (state, _) ← (loadPairs loader canMutate (m, t)).run ⟨bytes, false⟩
    return state

def openFile (hasher : Bytes → Hash) (loader : Loader) (canMutate : Nat → Nat → Bool) (file : Option Bytes) :
    Except LoadError (TreeStore hasher) := do
  let t : TreeStore hasher := { file }
  let oldv := t.root
  let (m, t) ← t.loadInto loader canMutate oldv.value
  return { t with root := ⟨oldv.impl + 1, m⟩ }

/-! ## The store it stands for -/

def toStore (t : TreeStore hasher) : Store where
  heap := t.heap
  next := t.next
  root := ⟨t.root.impl, t.root.value.toFinmap⟩
  dirty := t.dirty
  stats := t.stats
  file := t.file

theorem enumerates (t : TreeStore hasher) : t.toStore.root.value.Enumerates t.root.value.visited := by
  rw [ImmerMap.visited_eq]
  rfl

theorem toStore_set (t : TreeStore hasher) (key value : Bytes) :
    (t.set key value).toStore = t.toStore.set key value := by
  cases h : t.root.value.toFinmap.lookup key with
  | none =>
    have hfind := (t.root.value.find_eq key).trans h
    have h' : t.toStore.root.value.lookup key = none := h
    simp only [set, setUpdate, findOrCreate, hfind, Store.set, Store.setUpdate, Store.findOrCreate, h']
    simp only [toStore, ImmerMap.toFinmap_set]
    rfl
  | some e =>
    have hfind := (t.root.value.find_eq key).trans h
    have h' : t.toStore.root.value.lookup key = some e := h
    simp only [set, setUpdate, findOrCreate, hfind, Store.set, Store.setUpdate, Store.findOrCreate, h']
    simp only [toStore, ImmerMap.toFinmap_set]
    rfl

theorem toStore_get (t : TreeStore hasher) (key : Bytes) :
    ((t.get key).1, (t.get key).2.toStore) = t.toStore.get key := by
  cases h : t.root.value.toFinmap.lookup key with
  | none =>
    have hfind := (t.root.value.find_eq key).trans h
    have h' : t.toStore.root.value.lookup key = none := h
    simp only [get, hfind, Store.get, h']
  | some e =>
    have hfind := (t.root.value.find_eq key).trans h
    have h' : t.toStore.root.value.lookup key = some e := h
    simp only [get, hfind, Store.get, h']
    rfl

theorem toStore_flushIfDirty (t : TreeStore hasher) (disk : Disk) :
    ((t.flushIfDirty disk).1, (t.flushIfDirty disk).2.toStore) =
      t.toStore.flushIfDirty t.root.value.visited disk := by
  have hsize : t.toStore.root.value.size = t.root.value.size := t.root.value.card_entries.symm
  have hdirty : t.toStore.dirty = t.dirty := rfl
  have hpair : Store.writePair { t.toStore with dirty := false } = writePair { t with dirty := false } := rfl
  simp only [flushIfDirty, Store.flushIfDirty, hdirty, hsize, hpair]
  split
  · rfl
  · split
    · rfl
    · split <;> rfl

theorem toStore_loadLoop (loader : Loader) (canMutate : Nat → Nat → Bool) (n i : Nat)
    (state : ImmerMap EntryPtr hasher × TreeStore hasher) :
    Prod.map ImmerMap.toFinmap toStore <$> loadLoop loader canMutate n i state =
      LoadM.loadLoop loader n i (state.1.toFinmap, state.2.toStore) := by
  induction n generalizing i state with
  | zero => rw [loadLoop, LoadM.loadLoop, map_pure]; rfl
  | succ n ih =>
    rw [loadLoop, LoadM.loadLoop, map_bind]
    refine bind_congr fun pair => (ih _ _).trans ?_
    rw [ImmerMap.toFinmap_setMut]
    rfl

theorem toStore_loadPairs (loader : Loader) (canMutate : Nat → Nat → Bool)
    (state : ImmerMap EntryPtr hasher × TreeStore hasher) :
    Prod.map ImmerMap.toFinmap toStore <$> loadPairs loader canMutate state =
      LoadM.loadPairs loader (state.1.toFinmap, state.2.toStore) := by
  rw [loadPairs, LoadM.loadPairs, map_bind]
  exact bind_congr fun size => toStore_loadLoop loader canMutate size 0 state

/-- The empty map and the store it is loaded into. -/
def unloaded (hasher : Bytes → Hash) (bytes : Bytes) : ImmerMap EntryPtr hasher × TreeStore hasher :=
  (.empty, { file := some bytes })

theorem openFile_some (loader : Loader) (canMutate : Nat → Nat → Bool) (bytes : Bytes) :
    openFile hasher loader canMutate (some bytes) =
      ((loadPairs loader canMutate (unloaded hasher bytes)).run ⟨bytes, false⟩).map fun r =>
        { r.1.2 with root := ⟨1, r.1.1⟩ } := by
  simp only [openFile, loadInto]
  rw [show (ImmerMap.empty, ({ file := some bytes } : TreeStore hasher)) = unloaded hasher bytes from rfl]
  cases (loadPairs loader canMutate (unloaded hasher bytes)).run ⟨bytes, false⟩ with
  | error err => rfl
  | ok r => rfl

theorem toStore_openFile (hasher : Bytes → Hash) (loader : Loader) (canMutate : Nat → Nat → Bool)
    (file : Option Bytes) :
    (openFile hasher loader canMutate file).map toStore = Store.openFile loader file := by
  cases file with
  | none => rfl
  | some bytes =>
    have hpairs := congrArg (fun p : LoadM (Map × Store) => p.run ⟨bytes, false⟩)
      (toStore_loadPairs loader canMutate (unloaded hasher bytes))
    simp only [StateT.run_map] at hpairs
    rw [Store.openFile_some, openFile_some]
    refine Eq.trans ?_ (congrArg (Except.map fun r => Store.ofLoading r.1) hpairs)
    cases (loadPairs loader canMutate (unloaded hasher bytes)).run ⟨bytes, false⟩ with
    | error err => rfl
    | ok r => rfl

end TreeStore

end ConfigServer
