/-
No completed SET is left unsaved with the dirty flag down. While the flag is
up, or a `set` is on its way (it will raise the flag last), nothing is
promised. Otherwise no entry has changed since the last flush took its
snapshot, so what that flush has written so far is right, and once it has
finished the file is the image of the content.

What a flush has written is stated for any values of the entries, so that it
can be used where they change under it.
-/
import ConfigServer.ConcurrentFacts

namespace ConfigServer

open LittleEndian

/-! ## What a flush has written -/

/-- The records of these bindings, when the entries have these values. -/
def recordsOf (vals : EntryPtr → Bytes) (order : List Binding) : Bytes :=
  order.flatMap fun pair => record (pair.1, vals pair.2)

theorem recordsOf_append (vals : EntryPtr → Bytes) (order order' : List Binding) :
    recordsOf vals (order ++ order') = recordsOf vals order ++ recordsOf vals order' :=
  List.flatMap_append

theorem recordsOf_single (vals : EntryPtr → Bytes) (pair : Binding) :
    recordsOf vals [pair] = record (pair.1, vals pair.2) :=
  List.flatMap_singleton ..

def Store.values (s : Store) (e : EntryPtr) : Bytes := (s.heap e).value

theorem Store.content_eq (s : Store) : s.content = fun key => (s.root.value.lookup key).map s.values := by
  funext key
  simp only [content, entryOf, Option.map_map]
  rfl

/-- The bindings whose value the flush has not written yet. -/
def FlushPc.unwritten : FlushPc → List Binding
  | .idle => []
  | .exchanged => []
  | .opened => []
  | .next _ todo => todo
  | .keyed _ pair todo => pair :: todo
  | .sized _ pair _ todo => pair :: todo

/-- What the flush has written of the bindings of `m`, when each entry had its
value in `vals` as it was visited. -/
def FlushPc.Writing (vals : EntryPtr → Bytes) (m : Map) (file : Option Bytes) : FlushPc → Prop
  | .idle => True
  | .exchanged => True
  | .opened => file = some []
  | .next visited todo =>
    m.Enumerates (visited ++ todo) ∧
      file = some (leBytes 8 (visited ++ todo).length ++ recordsOf vals visited)
  | .keyed visited pair todo =>
    m.Enumerates (visited ++ pair :: todo) ∧
      file = some (leBytes 8 (visited ++ pair :: todo).length ++ recordsOf vals visited)
  | .sized visited pair n todo =>
    m.Enumerates (visited ++ pair :: todo) ∧ n = (vals pair.2).length ∧
      file = some (leBytes 8 (visited ++ pair :: todo).length ++ recordsOf vals visited ++
        (leBytes 8 pair.1.length ++ (pair.1 ++ leBytes 8 n)))

/-- The entries the flush has still to visit have their values in `vals`. -/
def FlushPc.Agrees (vals : EntryPtr → Bytes) (s : Store) (flush : FlushPc) : Prop :=
  ∀ pair ∈ flush.unwritten, s.values pair.2 = vals pair.2

/-- The flush goes on as it has begun. -/
theorem World.FlushStep.writing {vals : EntryPtr → Bytes} {m : Map} {w w' : World} {a : Action}
    (hstep : w.FlushStep a w') (hload : w.flush = .opened → w.store.root.value = m)
    (h : w.flush.Writing vals m w.store.file) (hagrees : w.flush.Agrees vals w.store) :
    w'.flush.Writing vals m w'.store.file := by
  cases hstep with
  | skip hflush hdirty => exact h
  | exchange hflush hdirty => trivial
  | «open» hflush => rfl
  | load hflush horder =>
    rw [hflush] at h
    refine ⟨hload hflush ▸ horder, ?_⟩
    simp [World.write, show w.store.file = some [] from h, horder.size_eq, recordsOf]
  | key hflush =>
    rw [hflush] at h
    exact h
  | @size visited todo pair hflush =>
    rw [hflush] at h hagrees
    have hvalue : (w.store.heap pair.2).value = vals pair.2 := hagrees pair (by simp [FlushPc.unwritten])
    refine ⟨h.1, by rw [hvalue], ?_⟩
    simp [World.write, h.2]
  | @data visited todo pair n junk hflush hjunk =>
    rw [hflush] at h hagrees
    have hvalue : (w.store.heap pair.2).value = vals pair.2 := hagrees pair (by simp [FlushPc.unwritten])
    obtain ⟨horder, rfl, hfile⟩ := h
    -- The value still has the size that was read, so all of it is written and nothing else.
    have hbytes : (w.store.heap pair.2).value.take (vals pair.2).length ++ junk = vals pair.2 := by
      have hjunk : junk = [] := List.length_eq_zero_iff.1 (by rw [hjunk, hvalue, Nat.sub_self])
      rw [hjunk, hvalue, List.take_length, List.append_nil]
    refine ⟨by simpa using horder, ?_⟩
    simp only [World.write, hfile, hbytes, Option.map_some, recordsOf_append, recordsOf_single, record]
    simp
  | finish hflush => trivial

/-- When no binding is left the file is an image. -/
theorem FlushPc.Writing.saved {vals : EntryPtr → Bytes} {m : Map} {file : Option Bytes}
    {visited : List Binding} (h : (FlushPc.next visited []).Writing vals m file) :
    Store.SavedAs file fun key => (m.lookup key).map vals := by
  obtain ⟨horder, hfile⟩ := h
  rw [List.append_nil] at horder hfile
  refine ⟨visited.map fun pair => (pair.1, vals pair.2), ?_, fun key value => ?_, ?_⟩
  · rw [List.map_map]
    exact horder.nodup
  · simp [horder.mem_iff]
  · rw [hfile, image, List.length_map, List.flatMap_map]
    rfl

/-! ## Nothing unsaved -/

/-- There may be changes that no flush has seen: the flag is up, or a call of `set` is still to raise it. -/
def World.Unsaved (w : World) : Prop := w.store.dirty = true ∨ ∃ c, .set c ∈ w.calls ∧ c.pc ≠ .done

/-- The file holds the content, or there is none and nothing to be saved. -/
def Store.Saved (s : Store) : Prop :=
  SavedAs s.file s.content ∨ s.file = none ∧ ∀ key, s.content key = none

/-- The invariant of sets and flushes. -/
structure World.Persisted (w : World) : Prop where
  writing : ¬ w.Unsaved → w.flush.Writing w.store.values w.store.root.value w.store.file
  saved : ¬ w.Unsaved → w.flush = .idle → w.store.Saved

/-- After any step of a call of `set` there is something unsaved. -/
theorem SetCall.Step.unsaved {s s' : Store} {c c' : SetCall} (h : Step s c s' c') :
    s'.dirty = true ∨ c'.pc ≠ .done := by
  cases h with
  | dirty => exact .inl rfl
  | _ => exact .inr (by simp)

theorem GetCall.Step.frame {s s' : Store} {c c' : GetCall} (h : Step s c s' c') :
    s'.values = s.values ∧ s'.root = s.root ∧ s'.file = s.file ∧ s'.dirty = s.dirty := by
  refine ⟨funext fun e => (h.entry e).1, ?_⟩
  cases h <;> exact ⟨rfl, rfl, rfl⟩

theorem World.Persisted.of_unsaved {w : World} (h : w.Unsaved) : w.Persisted :=
  ⟨fun hsaved => absurd h hsaved, fun hsaved => absurd h hsaved⟩

/-- Whatever leaves the content, the flush and the calls of `set` alone. -/
theorem World.Persisted.of_eq {w w' : World} (h : w.Persisted) (hvalues : w'.store.values = w.store.values)
    (hroot : w'.store.root = w.store.root) (hfile : w'.store.file = w.store.file)
    (hdirty : w'.store.dirty = w.store.dirty) (hflush : w'.flush = w.flush)
    (hcalls : ∀ c, .set c ∈ w'.calls ↔ .set c ∈ w.calls) : w'.Persisted := by
  have hunsaved : w'.Unsaved ↔ w.Unsaved := by
    simp only [Unsaved, hdirty, hcalls]
  have hcontent : w'.store.content = w.store.content := by
    rw [Store.content_eq, Store.content_eq, hvalues, hroot]
  refine ⟨fun hsaved => ?_, fun hsaved hidle => ?_⟩
  · rw [hvalues, hroot, hfile, hflush]
    exact h.writing (mt hunsaved.2 hsaved)
  · rw [Store.Saved, hfile, hcontent]
    exact h.saved (mt hunsaved.2 hsaved) (hflush ▸ hidle)

theorem World.FlushStep.persisted {w w' : World} {a : Action} (h : w.Persisted) (hstep : w.FlushStep a w') :
    w'.Persisted := by
  have hwriting (hsaved : ¬ w.Unsaved) : w'.flush.Writing w'.store.values w'.store.root.value w'.store.file := by
    have hnext := hstep.writing (fun _ => rfl) (h.writing hsaved) fun _ _ => rfl
    -- The flush changes neither the root nor the entries.
    obtain ⟨dirty, file, flush, rfl⟩ := hstep.frame
    exact hnext
  cases hstep with
  | exchange hflush hdirty => exact ⟨fun _ => trivial, fun _ h => nomatch h⟩
  | skip hflush hdirty => exact h
  | «open» hflush => exact ⟨hwriting, fun _ h => nomatch h⟩
  | load hflush horder => exact ⟨hwriting, fun _ h => nomatch h⟩
  | key hflush => exact ⟨hwriting, fun _ h => nomatch h⟩
  | size hflush => exact ⟨hwriting, fun _ h => nomatch h⟩
  | data hflush hjunk => exact ⟨hwriting, fun _ h => nomatch h⟩
  | finish hflush =>
    refine ⟨fun _ => trivial, fun hsaved _ => .inl ?_⟩
    have hdone := h.writing hsaved
    rw [hflush] at hdone
    rw [Store.content_eq]
    exact hdone.saved

theorem World.Step.persisted {w w' : World} {a : Action} (h : w.Persisted) (hstep : World.Step w a w') :
    w'.Persisted := by
  cases hstep with
  | callSet hkey hvalue =>
    refine .of_unsaved (.inr ⟨_, List.mem_append_right _ List.mem_cons_self, ?_⟩)
    simp
  | set hi hstep =>
    refine .of_unsaved (hstep.unsaved.imp id fun hpc => ⟨_, ?_, hpc⟩)
    exact List.mem_set (List.getElem?_eq_some_iff.1 hi).1 _
  | callGet => exact h.of_eq rfl rfl rfl rfl rfl fun c => by simp
  | get hi hstep =>
    obtain ⟨hvalues, hroot, hfile, hdirty⟩ := hstep.frame
    exact h.of_eq hvalues hroot hfile hdirty rfl fun c => mem_set_get hi
  | flush hflush => exact hflush.persisted h

/-- **From a saved store, whenever no `set` and no flush is
in progress and the flag is down, the file is a flush image of exactly the
current content, or is still absent with nothing to be saved.** -/
theorem World.run_saved {s₀ : Store} (hsaved : s₀.Saved) {as : List Action} {w : World}
    (hr : Runs.run World.step { store := s₀ } as = some w) (hreturned : ∀ c, .set c ∈ w.calls → c.pc = .done)
    (hidle : w.flush = .idle) (hdown : w.store.dirty = false) : w.store.Saved := by
  have hend : w.Persisted := by
    refine Runs.invariant (I := World.Persisted) (fun _ _ _ h hs => (World.step_spec hs).persisted h) hr ?_
    exact ⟨fun _ => trivial, fun _ _ => hsaved⟩
  refine hend.saved ?_ hidle
  rintro (hup | ⟨c, hmem, hpc⟩)
  · exact nomatch hdown.symm.trans hup
  · exact hpc (hreturned c hmem)

/-- A `set`, and a flush that starts before it has raised the flag and again after. -/
def setThenFlush : List Action :=
  [.callSet [97] [1]] ++ List.replicate 6 (.step 0) ++ [.flushExchange, .step 0, .flushExchange, .flushOpen,
    .flushLoad [⟨[97], 0⟩], .flushKey, .flushSize, .flushData [], .flushFinish]

theorem World.run_saved_setThenFlush :
    ∃ w, Runs.run World.step { store := {} } setThenFlush = some w ∧ w.store.Saved := by
  have hend : (Runs.run World.step { store := {} } setThenFlush).map
      (fun w => (w.calls, w.flush, w.store.dirty)) =
      some ([.set ⟨[97], [1], [], .done⟩], .idle, false) := by decide
  obtain ⟨w, hr, heq⟩ := Option.map_eq_some_iff.1 hend
  simp only [Prod.mk.injEq] at heq
  refine ⟨w, hr, World.run_saved (.inr ⟨rfl, fun _ => rfl⟩) hr (fun c hmem => ?_) heq.2.1 heq.2.2⟩
  rw [heq.1, List.mem_singleton, Call.set.injEq] at hmem
  rw [hmem]

/-- A server that was started without a file has none until its first flush. -/
theorem World.start_not_savedAs :
    ¬ ∀ (s₀ : Store) (as : List Action) (w : World), s₀.dirty = false →
      (Store.SavedAs s₀.file s₀.content ∨ s₀.file = none ∧ ∀ key, s₀.content key = none) →
      Runs.run World.step { store := s₀ } as = some w → (∀ c, .set c ∈ w.calls → c.pc = .done) →
        w.flush = .idle →
      w.store.dirty = false → Store.SavedAs w.store.file w.store.content := by
  intro h
  obtain ⟨pairs, -, -, hfile⟩ := h {} [] { store := {} } rfl (.inr ⟨rfl, fun _ => rfl⟩) rfl
    (fun c hmem => nomatch hmem)
    rfl rfl
  cases hfile

end ConfigServer
