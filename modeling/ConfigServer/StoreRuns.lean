/-
Operations run one after another on a store that was just opened. The store
refines the counted map: an entry holds a cell's value with the two counts
modulo `2 ^ 64`. So what a GET answers can be read off the history of the
operations before it.
-/
import ConfigServer.Lib.CountedMap
import ConfigServer.StoreFileFacts

namespace ConfigServer

open CountedMap ServerDispatcher

variable {Socket : Type*}

/-- An operation on a store: a call of `config_store::set`, a command processed
for a socket, or a flush. -/
inductive Operation (Socket : Type*)
  | set (key value : Bytes)
  | process (socket : Socket) (call : ServerCall)
  | flush (order : List Binding) (disk : Disk)

namespace Operation

/-- The store after the operation, and what it sends on which socket. -/
def apply (s : Store) : Operation Socket → Store × List (Socket × GetCommandResponse)
  | .set key value => (s.set key value, [])
  | .process socket call => ServerDispatcher.process s socket call
  | .flush order disk => ((s.flushIfDirty order disk).2, [])

def run (s : Store) (ops : List (Operation Socket)) : Store := ops.foldl (fun s op => (apply s op).1) s

/-- What the operation is to the counted map: a flush is nothing. -/
def abstract : Operation Socket → Option (Op Bytes Bytes)
  | .set key value => some (.set key value)
  | .process _ (.get cmd) => some (.get cmd.key)
  | .process _ (.set cmd) => some (.set cmd.key cmd.value)
  | .flush _ _ => none

def history (ops : List (Operation Socket)) : List (Op Bytes Bytes) := ops.filterMap abstract

end Operation

/-! ## The refinement -/

def entryOfCell (cell : Cell Bytes) : Entry :=
  { value := cell.value, reads := UInt64.ofNat cell.reads, writes := UInt64.ofNat cell.writes }

/-- The store represents the counted map `m`. -/
structure Refines (s : Store) (m : CountedMap Bytes Bytes) : Prop where
  wf : s.Wf
  entries (key : Bytes) : s.entryOf key = (m.cells key).map entryOfCell
  getTotal : s.stats.getTotal = UInt64.ofNat m.gets
  setTotal : s.stats.setTotal = UInt64.ofNat m.sets

namespace Refines

variable {s : Store} {m : CountedMap Bytes Bytes}

theorem of_loaded (h : s.Loaded) : Refines s (.ofContent s.content) where
  wf := h.wf
  entries key := by
    cases hen : s.entryOf key with
    | none => simp [ofContent, Store.content, hen]
    | some en =>
      obtain ⟨hreads, hwrites⟩ := h.fresh hen
      obtain ⟨value, reads, writes⟩ := en
      dsimp only at hreads hwrites
      simp [ofContent, Store.content, hen, entryOfCell, hreads, hwrites]
  getTotal := by rw [h.stats]; rfl
  setTotal := by rw [h.stats]; rfl

/-- A new value goes into the entry the key has, so its reads count survives. -/
theorem set (h : Refines s m) (key value : Bytes) : Refines (s.set key value) (m.set key value) where
  wf := Store.set_wf h.wf key value
  entries key' := by
    rw [Store.set_entryOf h.wf]
    by_cases hkey : key' = key
    · subst hkey
      rw [Function.update_self, h.entries]
      cases hcell : m.cells key' with
      | none => simp [CountedMap.set, readsOf, writesOf, hcell, entryOfCell, Entry.afterSet]
      | some cell => simp [CountedMap.set, readsOf, writesOf, hcell, entryOfCell, Entry.afterSet]
    · rw [Function.update_of_ne hkey, h.entries]
      simp [CountedMap.set, Function.update_of_ne hkey]
  getTotal := by rw [Store.set_stats]; exact h.getTotal
  setTotal := by
    rw [Store.set_stats]
    show s.stats.setTotal + 1 = _
    rw [h.setTotal]
    exact (UInt64.ofNat_add m.sets 1).symm

/-- A GET that finds its key answers what the counted map has after it. -/
theorem get_found (h : Refines s m) {cmd : GetCommand} {cell : Cell Bytes}
    (hcell : m.cells cmd.key = some cell) (socket : Socket) :
    Refines (processGet s cmd socket).1 (m.get cmd.key) ∧
      (processGet s cmd socket).2 = [(socket, .ofGet cmd cell.value (UInt64.ofNat (cell.reads + 1))
        (UInt64.ofNat cell.writes))] := by
  have hen : s.entryOf cmd.key = some (entryOfCell cell) := by rw [h.entries, hcell, Option.map_some]
  obtain ⟨e, s', hget, hheap, hentries, hwf, hstats⟩ := Store.get_some h.wf hen
  have hreads : (entryOfCell cell).afterGet = entryOfCell { cell with reads := cell.reads + 1 } := by
    simp [entryOfCell, Entry.afterGet]
  simp only [processGet, hget, hheap, hreads]
  refine ⟨⟨hwf, fun key => ?_, ?_, ?_⟩, rfl⟩
  · rw [hentries, hreads]
    by_cases hkey : key = cmd.key
    · subst hkey
      simp [CountedMap.get, hcell]
    · rw [Function.update_of_ne hkey, h.entries]
      simp [CountedMap.get, hcell, Function.update_of_ne hkey]
  · rw [hstats]
    show s.stats.getTotal + 1 = _
    rw [h.getTotal]
    simp [CountedMap.get, hcell]
  · rw [hstats, m.get_sets]
    exact h.setTotal

/-- A GET of an absent key changes nothing. -/
theorem get_absent (h : Refines s m) {cmd : GetCommand} (hcell : m.cells cmd.key = none) (socket : Socket) :
    processGet s cmd socket = (s, [(socket, .ofGet cmd notFound 0 0)]) := by
  have hen : s.entryOf cmd.key = none := by rw [h.entries, hcell, Option.map_none]
  simp only [processGet, Store.get_none hen]

theorem apply (h : Refines s m) (op : Operation Socket) :
    Refines (op.apply s).1 (m.run op.abstract.toList) := by
  cases op with
  | set key value => exact h.set key value
  | flush order disk =>
    refine ⟨Store.flushIfDirty_wf h.wf order disk, fun key => ?_, ?_, ?_⟩
    · rw [Operation.apply, Store.flushIfDirty_entryOf]
      exact h.entries key
    · rw [Operation.apply, Store.flushIfDirty_stats]
      exact h.getTotal
    · rw [Operation.apply, Store.flushIfDirty_stats]
      exact h.setTotal
  | process socket call =>
    cases call with
    | set cmd => exact h.set cmd.key cmd.value
    | get cmd =>
      cases hcell : m.cells cmd.key with
      | none =>
        have hget : m.get cmd.key = m := by simp only [CountedMap.get, hcell]
        show Refines (processGet s cmd socket).1 (m.get cmd.key)
        rw [h.get_absent hcell, hget]
        exact h
      | some cell => exact (h.get_found hcell socket).1

theorem run (h : Refines s m) (ops : List (Operation Socket)) :
    Refines (Operation.run s ops) (m.run (Operation.history ops)) := by
  induction ops generalizing s m with
  | nil => exact h
  | cons op ops ih =>
    have hrest := ih (h.apply op)
    have hhistory : Operation.history (op :: ops) = op.abstract.toList ++ Operation.history ops := by
      rw [Operation.history, List.filterMap_cons]
      cases op.abstract <;> rfl
    rw [hhistory, CountedMap.run_append]
    exact hrest

end Refines

/-! ## What is answered -/

/-- The answer to a GET after a history of operations on a store loaded with this content. -/
def replyTo (content : Bytes → Option Bytes) (history : List (Op Bytes Bytes)) (cmd : GetCommand) :
    GetCommandResponse :=
  match lastValue cmd.key (content cmd.key) history with
  | none => .ofGet cmd notFound 0 0
  | some value =>
    let found := foundGets cmd.key (content cmd.key) (history ++ [.get cmd.key])
    .ofGet cmd value (UInt64.ofNat found) (UInt64.ofNat (setsOf cmd.key history))

/-- How a store serves after a history of operations, from a content loaded at start-up. -/
structure Serves (content : Bytes → Option Bytes) (history : List (Op Bytes Bytes)) (s : Store) : Prop where
  refines : Refines s ((ofContent content).run history)
  /-- A GET sends one response, on its own socket. -/
  reply {Socket : Type} (socket : Socket) (cmd : GetCommand) :
    (processGet s cmd socket).2 = [(socket, replyTo content history cmd)]
  /-- A GET of an absent key changes nothing. -/
  absent {Socket : Type} (socket : Socket) (cmd : GetCommand) :
    lastValue cmd.key (content cmd.key) history = none → (processGet s cmd socket).1 = s
  /-- A SET sends nothing and changes the entry of its own key, whose reads it keeps. -/
  set {Socket : Type} (socket : Socket) (cmd : SetCommand) :
    processSet s cmd socket = (s.set cmd.key cmd.value, []) ∧
      (∀ key, key ≠ cmd.key → (s.set cmd.key cmd.value).entryOf key = s.entryOf key) ∧
      ((s.set cmd.key cmd.value).entryOf cmd.key).map Entry.reads =
        some ((s.entryOf cmd.key).elim 0 Entry.reads)
  getTotal : s.stats.getTotal = UInt64.ofNat (allFound content history)
  setTotal : s.stats.setTotal = UInt64.ofNat (history.countP Op.isSet)
  /-- Below `2 ^ 64` operations the reads count tells whether the key was found, whatever its value. -/
  reads_eq_zero (cmd : GetCommand) : history.length + 1 < 2 ^ 64 →
    ((replyTo content history cmd).reads = 0 ↔ lastValue cmd.key (content cmd.key) history = none)

section Reply

variable (content : Bytes → Option Bytes) (history : List (Op Bytes Bytes)) (cmd : GetCommand)

theorem replyTo_absent (h : lastValue cmd.key (content cmd.key) history = none) :
    replyTo content history cmd = .ofGet cmd notFound 0 0 := by
  simp only [replyTo, h]

theorem replyTo_found {value : Bytes} (h : lastValue cmd.key (content cmd.key) history = some value) :
    replyTo content history cmd =
      .ofGet cmd value (UInt64.ofNat (foundGets cmd.key (content cmd.key) history + 1))
        (UInt64.ofNat (setsOf cmd.key history)) := by
  simp only [replyTo, h, foundGets_get, Option.isSome_some, if_true]

theorem replyTo_reads (hlen : history.length + 1 < 2 ^ 64) :
    (replyTo content history cmd).reads = 0 ↔ lastValue cmd.key (content cmd.key) history = none := by
  cases h : lastValue cmd.key (content cmd.key) history with
  | none =>
    rw [replyTo_absent content history cmd h]
    exact iff_of_true rfl rfl
  | some value =>
    rw [replyTo_found content history cmd h]
    have hle := foundGets_le cmd.key history (content cmd.key)
    refine iff_of_false (fun hzero => ?_) (fun hnone => nomatch hnone)
    have hnat := congrArg UInt64.toNat hzero
    simp only [GetCommandResponse.ofGet, UInt64.toNat_ofNat', UInt64.toNat_zero] at hnat
    omega

end Reply

theorem Refines.reply {Socket : Type} {content : Bytes → Option Bytes} {history : List (Op Bytes Bytes)}
    {s : Store} (h : Refines s ((ofContent content).run history)) (socket : Socket) (cmd : GetCommand) :
    (processGet s cmd socket).2 = [(socket, replyTo content history cmd)] := by
  have hcells := run_ofContent_cells cmd.key history content
  cases hlast : lastValue cmd.key (content cmd.key) history with
  | none =>
    rw [hlast] at hcells
    rw [h.get_absent hcells, replyTo_absent content history cmd hlast]
  | some value =>
    rw [hlast] at hcells
    rw [(h.get_found hcells socket).2, replyTo_found content history cmd hlast]

/-- **After any operations run one after another on a store just opened, it
serves as the counted map of its loaded content does after their history.** -/
theorem Operation.run_serves {loader : Loader} {file : Option Bytes} {s₀ : Store}
    (hopen : Store.openFile loader file = .ok s₀) (ops : List (Operation Socket)) :
    Serves s₀.content (history ops) (run s₀ ops) := by
  have h := (Refines.of_loaded (Store.openFile_loaded hopen)).run ops
  refine ⟨h, h.reply, fun socket cmd hlast => ?_, fun socket cmd => ⟨rfl, fun key hkey => ?_, ?_⟩, ?_, ?_,
    replyTo_reads s₀.content _⟩
  · have hcells := run_ofContent_cells cmd.key (history ops) s₀.content
    rw [hlast] at hcells
    rw [h.get_absent hcells]
  · rw [Store.set_entryOf h.wf, Function.update_of_ne hkey]
  · rw [Store.set_entryOf h.wf, Function.update_self, Option.map_some]
    cases (run s₀ ops).entryOf cmd.key <;> rfl
  · rw [h.getTotal, run_gets, ofContent_content]
    simp [ofContent]
  · rw [h.setTotal, run_sets]
    simp [ofContent]

/-- A GET before the first SET, the SET, and another GET. -/
def getSetGet : List (Operation Unit) :=
  [.process () (.get ⟨[97], 1⟩), .set [97] [120], .process () (.get ⟨[97], 2⟩)]

theorem Operation.run_serves_getSetGet :
    ∃ s₀, Store.openFile {} none = .ok s₀ ∧ Serves s₀.content (history getSetGet) (run s₀ getSetGet) :=
  have hopen : Store.openFile {} none = .ok { root := ⟨1, ∅⟩ } := rfl
  ⟨_, hopen, Operation.run_serves hopen getSetGet⟩

/-- The gets of a key, found or not. -/
def getsOf (key : Bytes) (history : List (Op Bytes Bytes)) : Nat :=
  history.countP fun
    | .set _ _ => false
    | .get key' => key' = key

/-- A GET that was answered with "not found" is not among the reads reported later. -/
theorem reads_ne_getsOf :
    ¬ ∀ (s₀ : Store) (before : List (Operation Unit)) (cmd : GetCommand), Store.openFile {} none = .ok s₀ →
      ((Operation.run s₀ before).entryOf cmd.key).isSome = true →
      ∃ response, (processGet (Operation.run s₀ before) cmd ()).2 = [((), response)] ∧
        response.reads = UInt64.ofNat (getsOf cmd.key (Operation.history before ++ [.get cmd.key])) := by
  intro h
  obtain ⟨response, hreply, hreads⟩ := h _ (getSetGet.take 2) ⟨[97], 2⟩ rfl (by decide)
  have hfirst : (processGet (Operation.run { root := ⟨1, ∅⟩ } (getSetGet.take 2)) ⟨[97], 2⟩ ()).2 =
      [((), ⟨[97], 2, 1, 1, [120]⟩)] := by decide
  have hresponse : ⟨[97], 2, 1, 1, [120]⟩ = response :=
    congrArg Prod.snd (List.singleton_inj.1 (hfirst.symm.trans hreply))
  subst hresponse
  exact absurd hreads (by decide)

end ConfigServer
