/-
The store across restarts of the server. The server may end at any moment; what
a new one comes back with is the file. The store over its tree is a durable
map: loading the file is its restart, and a flush its save. A file that does not
open leaves the changes unsaved and unmarked.

A file that opens is written whole. A flush that opens its file and fails in the
middle of writing leaves an image cut off, and is not among the events here;
neither is a new hash function, as another build of the server may have.
-/
import ConfigServer.Lib.DurableMap
import ConfigServer.TreeStore

namespace ConfigServer

open Champ CountedMap DurableMap

variable {hasher : Bytes → Hash}

namespace TreeStore

/-- What happens to a store: a SET or a GET is processed, it is flushed, to a file that opens and
takes all that is written or to one that does not open, or the server ends and another is started. -/
inductive Call
  | set (cmd : SetCommand)
  | get (cmd : GetCommand)
  | flush (opens : Bool)
  | restart (loader : Loader) (canMutate : Nat → Nat → Bool)

/-- `process(get_command_ptr, socket)`: the store after it, and what it sends. -/
def processGet (t : TreeStore hasher) (cmd : GetCommand) : TreeStore hasher × GetCommandResponse :=
  let (opt, t) := t.get cmd.key
  match opt with
  | none => (t, .ofGet cmd ServerDispatcher.notFound 0 0)
  | some e => (t, .ofGet cmd (t.heap e).value (t.heap e).reads (t.heap e).writes)

def apply (t : TreeStore hasher) : Call → Except LoadError (TreeStore hasher)
  | .set cmd => .ok (t.set cmd.key cmd.value)
  | .get cmd => .ok (t.processGet cmd).1
  | .flush opens => .ok (t.flushIfDirty { opens }).2
  | .restart loader canMutate => openFile hasher loader canMutate t.file

def runCalls (t : TreeStore hasher) (calls : List Call) : Except LoadError (TreeStore hasher) :=
  calls.foldlM apply t

namespace Call

def event : Call → Event Bytes Bytes
  | set cmd => .op (.set cmd.key cmd.value)
  | get cmd => .op (.get cmd.key)
  | flush opens => .save opens
  | restart _ _ => .restart

/-- Nothing longer than `limit` is set, and strings up to it can be allocated. -/
def Fits (limit : Nat) : Call → Prop
  | set cmd => cmd.key.length ≤ limit ∧ cmd.value.length ≤ limit
  | get _ => True
  | flush _ => True
  | restart loader _ => ∀ n ≤ limit, loader.allocates n = true

end Call

/-! ## Loading what was saved -/

end TreeStore

namespace Store

open LoadM

theorem addPairs_file (pairs : List (Bytes × Bytes)) (state : Map × Store) :
    (pairs.foldl addPair state).2.file = state.2.file := by
  induction pairs generalizing state with
  | nil => rfl
  | cons pair pairs ih =>
    rw [List.foldl_cons, ih]
    rfl

/-- The file of a store: there is none yet, or it is an image of what was saved. -/
def FileOf (file : Option Bytes) (saved : Bytes → Option Bytes) : Prop :=
  (file = none ∧ saved = fun _ => none) ∨ SavedAs file saved

/-- Nodup keys out of a list of pairs are no more than the pairs. -/
theorem length_le_of_keys {pairs sets : List (Bytes × Bytes)} (hnodup : (pairs.map Prod.fst).Nodup)
    (hsub : ∀ pair ∈ pairs, pair ∈ sets) : pairs.length ≤ sets.length := by
  have hsubperm : (pairs.map Prod.fst).Subperm (sets.map Prod.fst) :=
    hnodup.subperm fun key hkey => by
      obtain ⟨pair, hpair, rfl⟩ := List.mem_map.1 hkey
      exact List.mem_map_of_mem (hsub pair hpair)
  have hlen := hsubperm.length_le
  rwa [List.length_map, List.length_map] at hlen

/-- A file of this kind is loaded with what was saved. -/
theorem FileOf.load {file : Option Bytes} {saved : Bytes → Option Bytes} (h : FileOf file saved)
    {loader : Loader} {limit : Nat} (hlimit : limit < 2 ^ 64) (halloc : ∀ n ≤ limit, loader.allocates n = true)
    {sets : List (Bytes × Bytes)} (hcount : sets.length < 2 ^ 64)
    (hsaved : ∀ {key value}, saved key = some value → (key, value) ∈ sets)
    (hsets : ∀ pair ∈ sets, pair.1.length ≤ limit ∧ pair.2.length ≤ limit) :
    ∃ s, openFile loader file = .ok s ∧ s.Loaded ∧ s.content = saved ∧ s.file = file := by
  rcases h with ⟨rfl, rfl⟩ | ⟨pairs, hnodup, hmem, rfl⟩
  · exact ⟨_, rfl, empty_loaded none, rfl, rfl⟩
  · have hsub : ∀ pair ∈ pairs, pair ∈ sets := fun pair hpair => hsaved ((hmem _ _).1 hpair)
    have hloadable : ∀ pair ∈ pairs, Loadable loader pair := fun pair hpair => by
      obtain ⟨hkey, hvalue⟩ := hsets _ (hsub _ hpair)
      exact ⟨Nat.lt_of_le_of_lt hkey hlimit, Nat.lt_of_le_of_lt hvalue hlimit, halloc _ hkey, halloc _ hvalue⟩
    have hload := addPairs_loaded (empty_loaded (some (image pairs))) pairs
    refine ⟨_, openFile_image (Nat.lt_of_le_of_lt (length_le_of_keys hnodup hsub) hcount) hloadable,
      hload.1, ?_, addPairs_file pairs _⟩
    rw [hload.2]
    funext key
    refine Option.ext fun value => ?_
    rw [addContent_eq_some hnodup, hmem]
    exact or_iff_left fun h => by cases h.2

end Store

namespace TreeStore

theorem openFile_ok (hasher : Bytes → Hash) {loader : Loader} (canMutate : Nat → Nat → Bool)
    {file : Option Bytes} {s : Store} (h : Store.openFile loader file = .ok s) :
    ∃ t, openFile hasher loader canMutate file = .ok t ∧ t.toStore = s := by
  have htree := (toStore_openFile hasher loader canMutate file).trans h
  cases hopen : openFile hasher loader canMutate file with
  | error err =>
    rw [hopen] at htree
    cases htree
  | ok t =>
    rw [hopen] at htree
    exact ⟨t, rfl, Except.ok.inj htree⟩

/-! ## The refinement -/

/-- The store is this durable map. -/
structure Represents (t : TreeStore hasher) (d : DurableMap Bytes Bytes) : Prop where
  refines : Refines t.toStore d.live
  file : Store.FileOf t.file d.saved
  dirty : t.dirty = d.dirty

theorem set_frame (t : TreeStore hasher) (key value : Bytes) :
    (t.set key value).file = t.file ∧ (t.set key value).dirty = true := by
  cases h : t.root.value.find key with
  | none => simp [set, setUpdate, findOrCreate, h, countWrite, assignValue, makeShared, modify]
  | some e => simp [set, setUpdate, findOrCreate, h, countWrite, assignValue, modify]

theorem processGet_frame (t : TreeStore hasher) (cmd : GetCommand) :
    (t.processGet cmd).1.file = t.file ∧ (t.processGet cmd).1.dirty = t.dirty := by
  cases h : t.root.value.find cmd.key with
  | none => simp [processGet, get, h]
  | some e => simp [processGet, get, h, countRead, modify]

theorem toStore_processGet {Socket : Type*} (t : TreeStore hasher) (cmd : GetCommand) (socket : Socket) :
    ServerDispatcher.processGet t.toStore cmd socket =
      ((t.processGet cmd).1.toStore, [(socket, (t.processGet cmd).2)]) := by
  have hget := t.toStore_get cmd.key
  simp only [ServerDispatcher.processGet, processGet, ← hget]
  cases (t.get cmd.key).1 <;> rfl

theorem Represents.set {t : TreeStore hasher} {d : DurableMap Bytes Bytes} (h : t.Represents d)
    (key value : Bytes) : (t.set key value).Represents (d.step (.op (.set key value))) := by
  obtain ⟨hfile, hdirty⟩ := t.set_frame key value
  refine ⟨?_, hfile ▸ h.file, hdirty⟩
  rw [toStore_set]
  exact h.refines.set key value

theorem Represents.get {t : TreeStore hasher} {d : DurableMap Bytes Bytes} (h : t.Represents d)
    (cmd : GetCommand) : (t.processGet cmd).1.Represents (d.step (.op (.get cmd.key))) := by
  obtain ⟨hfile, hdirty⟩ := t.processGet_frame cmd
  refine ⟨?_, hfile ▸ h.file, hdirty.trans h.dirty⟩
  have happly := h.refines.apply (Operation.process () (.get cmd))
  simp only [Operation.apply, ServerDispatcher.process, toStore_processGet] at happly
  exact happly

theorem Represents.content {t : TreeStore hasher} {d : DurableMap Bytes Bytes} (h : t.Represents d) :
    t.toStore.content = d.live.content := by
  funext key
  rw [Store.content, h.refines.entries, CountedMap.content, Option.map_map]
  rfl

theorem flushIfDirty_clean {t : TreeStore hasher} (hdirty : t.dirty = false) (disk : Disk) :
    (t.flushIfDirty disk).2 = t := by
  simp [flushIfDirty, hdirty]

theorem flushIfDirty_dirty (t : TreeStore hasher) (disk : Disk) : (t.flushIfDirty disk).2.dirty = false := by
  simp only [flushIfDirty]
  split
  · simp_all
  · split
    · rfl
    · split <;> rfl

/-- A file that does not open stays as it is. -/
theorem flushIfDirty_notOpen (t : TreeStore hasher) :
    (t.flushIfDirty { opens := false }).2.file = t.file := by
  simp only [flushIfDirty]
  split <;> rfl

theorem Represents.flush {t : TreeStore hasher} {d : DurableMap Bytes Bytes} (h : t.Represents d)
    (opens : Bool) : (t.flushIfDirty { opens }).2.Represents (d.step (.save opens)) := by
  have hflush := congrArg Prod.snd (t.toStore_flushIfDirty { opens })
  have hrefines : Refines (t.flushIfDirty { opens }).2.toStore d.live := by
    have happly := h.refines.apply (.flush t.root.value.visited { opens } : Operation Unit)
    simp only [Operation.apply, ← hflush] at happly
    exact happly
  cases hdirty : t.dirty with
  | false =>
    have hstep : d.step (.save opens) = d := by simp [DurableMap.step, ← h.dirty, hdirty]
    rw [hstep, flushIfDirty_clean hdirty]
    exact h
  | true =>
    have hstep : d.step (.save opens) =
        { d with saved := if opens then d.live.content else d.saved, dirty := false } := by
      simp [DurableMap.step, ← h.dirty, hdirty]
    rw [hstep]
    refine ⟨hrefines, ?_, t.flushIfDirty_dirty _⟩
    cases opens with
    | true =>
      refine .inr ?_
      have hsaved := Store.flushIfDirty_savedAs (s := t.toStore) hdirty t.enumerates
      rw [h.content, ← hflush] at hsaved
      exact hsaved
    | false =>
      rw [flushIfDirty_notOpen]
      exact h.file

theorem Represents.restart {t : TreeStore hasher} {d : DurableMap Bytes Bytes} (h : t.Represents d)
    {loader : Loader} {limit : Nat} (hlimit : limit < 2 ^ 64) (halloc : ∀ n ≤ limit, loader.allocates n = true)
    (canMutate : Nat → Nat → Bool) {sets : List (Bytes × Bytes)} (hfrom : d.FromSets sets)
    (hcount : sets.length < 2 ^ 64) (hsets : ∀ pair ∈ sets, pair.1.length ≤ limit ∧ pair.2.length ≤ limit) :
    ∃ t' : TreeStore hasher, openFile hasher loader canMutate t.file = .ok t' ∧
      t'.Represents (d.step .restart) := by
  obtain ⟨s, hopen, hloaded, hcontent, hfile⟩ := h.file.load hlimit halloc hcount hfrom.saved hsets
  obtain ⟨t', ht', rfl⟩ := openFile_ok hasher canMutate hopen
  refine ⟨t', ht', ?_, ?_, hloaded.clean⟩
  · have hrefines := Refines.of_loaded hloaded
    rwa [hcontent] at hrefines
  · rw [show t'.file = t.file from hfile]
    exact h.file

/-- A call is a step of the durable map. A restart never fails: what was saved can be loaded. -/
theorem Represents.apply {t : TreeStore hasher} {d : DurableMap Bytes Bytes} (h : t.Represents d) {call : Call}
    {limit : Nat} (hlimit : limit < 2 ^ 64) (hcall : call.Fits limit) {sets : List (Bytes × Bytes)}
    (hfrom : d.FromSets sets) (hcount : sets.length < 2 ^ 64)
    (hsets : ∀ pair ∈ sets, pair.1.length ≤ limit ∧ pair.2.length ≤ limit) :
    ∃ t' : TreeStore hasher, t.apply call = .ok t' ∧ t'.Represents (d.step call.event) := by
  cases call with
  | set cmd => exact ⟨_, rfl, h.set cmd.key cmd.value⟩
  | get cmd => exact ⟨_, rfl, h.get cmd⟩
  | flush opens => exact ⟨_, rfl, h.flush opens⟩
  | restart loader canMutate => exact h.restart hlimit hcall canMutate hfrom hcount hsets

theorem setsOf_fits {call : Call} {limit : Nat} (h : call.Fits limit) :
    (setsOf call.event).length ≤ 1 ∧
      ∀ pair ∈ setsOf call.event, pair.1.length ≤ limit ∧ pair.2.length ≤ limit := by
  cases call with
  | set cmd => exact ⟨Nat.le_refl 1, fun pair hpair => List.mem_singleton.1 hpair ▸ h⟩
  | get cmd => exact ⟨Nat.zero_le 1, fun pair hpair => absurd hpair List.not_mem_nil⟩
  | flush opens => exact ⟨Nat.zero_le 1, fun pair hpair => absurd hpair List.not_mem_nil⟩
  | restart loader canMutate => exact ⟨Nat.zero_le 1, fun pair hpair => absurd hpair List.not_mem_nil⟩

theorem Represents.runCalls {t : TreeStore hasher} {d : DurableMap Bytes Bytes} (h : t.Represents d)
    {limit : Nat} (hlimit : limit < 2 ^ 64) {calls : List Call} (hcalls : ∀ call ∈ calls, call.Fits limit)
    {sets : List (Bytes × Bytes)} (hfrom : d.FromSets sets) (hcount : sets.length + calls.length < 2 ^ 64)
    (hsets : ∀ pair ∈ sets, pair.1.length ≤ limit ∧ pair.2.length ≤ limit) :
    ∃ t' : TreeStore hasher, t.runCalls calls = .ok t' ∧ t'.Represents (d.run (calls.map Call.event)) := by
  induction calls generalizing t d sets with
  | nil => exact ⟨t, rfl, h⟩
  | cons call calls ih =>
    have hcall := hcalls call (List.mem_cons_self ..)
    obtain ⟨hone, hpairs⟩ := setsOf_fits hcall
    rw [List.length_cons] at hcount
    obtain ⟨t₁, ht₁, h₁⟩ := h.apply hlimit hcall hfrom (by omega) hsets
    obtain ⟨t', ht', h'⟩ := ih h₁ (fun c hc => hcalls c (List.mem_cons_of_mem _ hc)) (hfrom.step call.event)
      (by rw [List.length_append]; omega) fun pair hpair =>
        (List.mem_append.1 hpair).elim (hsets pair) (hpairs pair)
    refine ⟨t', ?_, h'⟩
    rw [TreeStore.runCalls, List.foldlM_cons, ht₁]
    exact ht'

theorem represents_empty : ({} : TreeStore hasher).Represents init where
  refines := Refines.of_loaded
    ({ wf := Store.wf_empty, fresh := fun h => (by cases h), clean := rfl, stats := rfl } :
    ({} : Store).Loaded)
  file := .inl ⟨rfl, rfl⟩
  dirty := rfl

/-- Every run from an empty store is one of the durable map. -/
theorem represents_runCalls (hasher : Bytes → Hash) {limit : Nat} (hlimit : limit < 2 ^ 64) {calls : List Call}
    (hcalls : ∀ call ∈ calls, call.Fits limit) (hcount : calls.length < 2 ^ 64) :
    ∃ t : TreeStore hasher, TreeStore.runCalls {} calls = .ok t ∧
      t.Represents (init.run (calls.map Call.event)) :=
  represents_empty.runCalls hlimit hcalls fromSets_init (by rwa [List.length_nil, Nat.zero_add])
    fun pair hpair => absurd hpair List.not_mem_nil

/-! ## What is answered -/

/-- The answer to a GET of a key with this cell. -/
def answer (cmd : GetCommand) : Option (Cell Bytes) → GetCommandResponse
  | none => .ofGet cmd ServerDispatcher.notFound 0 0
  | some cell => .ofGet cmd cell.value (UInt64.ofNat (cell.reads + 1)) (UInt64.ofNat cell.writes)

theorem Represents.answer {t : TreeStore hasher} {d : DurableMap Bytes Bytes} (h : t.Represents d)
    (cmd : GetCommand) : (t.processGet cmd).2 = answer cmd (d.live.cells cmd.key) := by
  have htree := congrArg Prod.snd (t.toStore_processGet cmd ())
  cases hcell : d.live.cells cmd.key with
  | none =>
    rw [h.refines.get_absent hcell] at htree
    exact (congrArg Prod.snd (List.singleton_inj.1 htree)).symm
  | some cell =>
    rw [(h.refines.get_found hcell ()).2] at htree
    exact (congrArg Prod.snd (List.singleton_inj.1 htree)).symm

/-- **Over any number of restarts, at any moments, with flushes that write the whole
file or cannot open it, a store is the durable map of its history**: every restart
succeeds, every GET is answered from what that map holds, with its counts since the
last restart, and the file is an image of what was saved last. Strings up to `limit`
can be allocated, nothing longer is set, and every restart has the same `hasher`. -/
theorem run_durable (hasher : Bytes → Hash) (limit : Nat) (hlimit : limit < 2 ^ 64) (calls : List Call)
    (hcalls : ∀ call ∈ calls, call.Fits limit) (hcount : calls.length < 2 ^ 64) :
    ∃ t : TreeStore hasher, runCalls {} calls = .ok t ∧
      (∀ cmd, (t.processGet cmd).2 = answer cmd ((init.run (calls.map Call.event)).live.cells cmd.key)) ∧
      Store.FileOf t.file (init.run (calls.map Call.event)).saved := by
  obtain ⟨t, ht, h⟩ := represents_runCalls hasher hlimit hcalls hcount
  exact ⟨t, ht, h.answer, h.file⟩

/-- Two values set and one saved; the server ends and another is started. -/
def saveOne : List Call :=
  [.set ⟨[97], [1]⟩, .flush true, .set ⟨[98], [2]⟩, .restart {} fun _ _ => true]

theorem run_durable_saveOne :
    ∃ t : TreeStore (fun _ => 0), runCalls {} saveOne = .ok t ∧
      (∀ cmd, (t.processGet cmd).2 = answer cmd ((init.run (saveOne.map Call.event)).live.cells cmd.key)) ∧
      Store.FileOf t.file (init.run (saveOne.map Call.event)).saved :=
  run_durable _ 1 (by decide) saveOne (by simp [saveOne, Call.Fits]) (by decide)

/-- **No value is lost while every flush opens its file and every restart comes when
nothing is left to be saved**: a GET is answered with the value last set in the whole
history, whatever restarts came in between. As above, a file that opens is written
whole, nothing is set that cannot be allocated, and the `hasher` stays. -/
theorem run_nothingLost (hasher : Bytes → Hash) (limit : Nat) (hlimit : limit < 2 ^ 64) (calls : List Call)
    (hcalls : ∀ call ∈ calls, call.Fits limit) (hcount : calls.length < 2 ^ 64)
    (hcareful : init.Careful (calls.map Call.event)) :
    ∃ t : TreeStore hasher, runCalls {} calls = .ok t ∧
      ∀ cmd, (t.processGet cmd).2.value =
        (lastValue cmd.key none (operations (calls.map Call.event))).getD ServerDispatcher.notFound := by
  obtain ⟨t, ht, h⟩ := represents_runCalls hasher hlimit hcalls hcount
  refine ⟨t, ht, fun cmd => ?_⟩
  have hcontent := DurableMap.run_content clean_init hcareful cmd.key
  rw [show (init : DurableMap Bytes Bytes).live.content cmd.key = none from rfl] at hcontent
  rw [h.answer, ← hcontent, CountedMap.content]
  cases (init.run (calls.map Call.event)).live.cells cmd.key <;> rfl

/-- Two values set and saved before the server ends. -/
def saveBoth : List Call :=
  [.set ⟨[97], [1]⟩, .set ⟨[98], [2]⟩, .flush true, .restart {} fun _ _ => true, .get ⟨[97], 1⟩]

theorem run_nothingLost_saveBoth :
    ∃ t : TreeStore (fun _ => 0), runCalls {} saveBoth = .ok t ∧
      ∀ cmd, (t.processGet cmd).2.value =
        (lastValue cmd.key none (operations (saveBoth.map Call.event))).getD ServerDispatcher.notFound := by
  refine run_nothingLost _ 1 (by decide) saveBoth ?_ (by decide) ?_
  · simp [saveBoth, Call.Fits]
  · simp [saveBoth, Careful, Call.event, DurableMap.step]

end TreeStore

end ConfigServer
