/-
When a flush saves the store as it was at one moment. The snapshot a flush
iterates over is persistent in its tree only: its entries are shared with the
store, and `set` changes them in place. So what the file holds is the content
of one moment when that moment splits the flush in two: before it no entry
already written changes, nor the length of the one being written, and no key
is added; after it no entry of the snapshot still to be written changes.
-/
import ConfigServer.Persist

namespace ConfigServer

/-! ## Which steps change what the flush sees -/

/-- The entry in which the step stores a value, if it is one of an existing key, and the value. -/
def World.assigns (w : World) : Action → Option (EntryPtr × Bytes)
  | .step i =>
    match w.calls[i]? with
    | some (.set c) =>
      match c.pc with
      | .loaded oldv => (oldv.value.lookup c.key).map fun e => (e, c.value)
      | _ => none
    | _ => none
  | _ => none

/-- The step publishes a new key. -/
def World.adds (w : World) : Action → Bool
  | .step i =>
    match w.calls[i]? with
    | some (.set c) =>
      match c.pc with
      | .applied oldv _ => oldv.impl = w.store.root.impl && (oldv.value.lookup c.key).isNone
      | _ => false
    | _ => false
  | _ => false

/-- The bindings written, and the one whose size has been written, with that size. -/
def FlushPc.written : FlushPc → List Binding
  | .next visited _ => visited
  | .keyed visited _ _ => visited
  | .sized visited _ _ _ => visited
  | _ => []

def FlushPc.measured : FlushPc → List (Binding × Nat)
  | .sized _ pair n _ => [(pair, n)]
  | _ => []

/-- The step stores no other value in an entry the flush has written, and none
of another length in the one it has measured; and it adds no key. -/
def World.KeepsWritten (w : World) (a : Action) : Prop :=
  (∀ p ∈ w.assigns a, (∀ pair ∈ w.flush.written, pair.2 = p.1 → p.2 = w.store.values p.1) ∧
    ∀ pair ∈ w.flush.measured, pair.1.2 = p.1 → p.2.length = pair.2) ∧
  w.adds a = false

/-- The step stores no other value in an entry of the snapshot that the flush has still to write. -/
def World.KeepsUnwritten (w : World) (a : Action) : Prop :=
  ∀ p ∈ w.assigns a, ∀ pair ∈ w.flush.unwritten, pair.2 = p.1 → p.2 = w.store.values p.1

instance (w : World) (a : Action) : Decidable (w.KeepsWritten a) :=
  inferInstanceAs (Decidable (_ ∧ _))

instance (w : World) (a : Action) : Decidable (w.KeepsUnwritten a) :=
  inferInstanceAs (Decidable (∀ p ∈ w.assigns a, _))

/-! ## What a step changes -/

/-- A call of `set` changes the value of an entry made before only by storing its argument in it. -/
theorem SetCall.Step.values {s s' : Store} {c c' : SetCall} (h : Step s c s' c') {e : EntryPtr}
    (hlt : e < s.next) :
    s'.values e = s.values e ∨
      ∃ oldv, c.pc = .loaded oldv ∧ oldv.value.lookup c.key = some e ∧ s'.values e = c.value := by
  cases h with
  | @assignFound key given value oldv e₀ hfound =>
    by_cases he : e = e₀
    · subst he
      exact .inr ⟨oldv, rfl, hfound, congrArg Entry.value (Store.modify_heap_self s e _)⟩
    · exact .inl (congrArg Entry.value (Store.modify_heap_of_ne s e₀ _ he))
  | assignNew habsent hroom =>
    exact .inl (congrArg Entry.value (Store.makeShared_heap_of_ne _ (Nat.ne_of_lt hlt)))
  | @count key given value oldv e₀ =>
    by_cases he : e = e₀
    · subst he
      exact .inl (by simp [Store.values, Store.countWrite])
    · exact .inl (congrArg Entry.value (Store.modify_heap_of_ne s e₀ _ he))
  | _ => exact .inl rfl

/-- It changes the map only by publishing a new key. -/
theorem SetCall.Step.map {s s' : Store} {c c' : SetCall} (hwf : s.Wf) (hok : c.Ok s) (h : Step s c s' c') :
    s'.root.value = s.root.value ∨
      ∃ oldv e, c.pc = .applied oldv e ∧ oldv.impl = s.root.impl ∧ oldv.value.lookup c.key = none := by
  cases h with
  | @publish key given value oldv e hsame =>
    rcases hok.2 with hfound | ⟨habsent, -⟩
    · have hb := publish_binds hwf hok.1 hok.2 hsame
      refine .inl (Finmap.ext_lookup fun key' => ?_)
      by_cases hkey : key' = key
      · rw [hkey]
        exact hb.lookup_self.trans (hok.1.rel key e hfound).symm
      · exact hb.lookup_of_ne hkey
    · exact .inr ⟨oldv, e, rfl, hsame, habsent⟩
  | _ => exact .inl rfl

theorem SetCall.Step.file {s s' : Store} {c c' : SetCall} (h : Step s c s' c') : s'.file = s.file := by
  cases h <;> rfl

theorem World.Step.values {w w' : World} {a : Action} (hstep : World.Step w a w') {e : EntryPtr}
    (hlt : e < w.store.next) :
    w'.store.values e = w.store.values e ∨ ∃ p ∈ w.assigns a, p.1 = e ∧ w'.store.values e = p.2 := by
  cases hstep with
  | callSet hkey hvalue => exact .inl rfl
  | callGet => exact .inl rfl
  | set hi hstep =>
    refine (hstep.values hlt).imp id fun ⟨oldv, hpc, hfound, hvalue⟩ => ⟨(e, _), ?_, rfl, hvalue⟩
    simp [World.assigns, hi, hpc, hfound]
  | get hi hstep => exact .inl (congrFun hstep.frame.1 e)
  | flush hflush =>
    obtain ⟨dirty, file, flush, rfl⟩ := hflush.frame
    exact .inl rfl

theorem World.Step.map {w w' : World} {a : Action} (h : w.Coherent) (hstep : World.Step w a w')
    (hadds : w.adds a = false) : w'.store.root.value = w.store.root.value := by
  cases hstep with
  | callSet hkey hvalue => rfl
  | callGet => rfl
  | set hi hstep =>
    rcases hstep.map h.shared (h.set_ok hi) with hsame | ⟨oldv, e, hpc, himpl, habsent⟩
    · exact hsame
    · simp [World.adds, hi, hpc, himpl, habsent] at hadds
  | get hi hstep => exact congrArg Box.value hstep.frame.2.1
  | flush hflush =>
    obtain ⟨dirty, file, flush, rfl⟩ := hflush.frame
    rfl

/-- A step that is not the flush's leaves its place and the file alone. -/
theorem World.Step.flush_or {w w' : World} {a : Action} (hstep : World.Step w a w') :
    w.FlushStep a w' ∨ w'.flush = w.flush ∧ w'.store.file = w.store.file := by
  cases hstep with
  | callSet hkey hvalue => exact .inr ⟨rfl, rfl⟩
  | callGet => exact .inr ⟨rfl, rfl⟩
  | set hi hstep => exact .inr ⟨rfl, hstep.file⟩
  | get hi hstep => exact .inr ⟨rfl, hstep.frame.2.2.1⟩
  | flush hflush => exact .inl hflush

/-! ## The flush at its loop -/

/-- The flush has loaded its snapshot. -/
def FlushPc.iterates : FlushPc → Bool
  | .next _ _ => true
  | .keyed _ _ _ => true
  | .sized _ _ _ _ => true
  | _ => false

/-- All bindings of the snapshot, in the order of the iteration. -/
def FlushPc.order : FlushPc → List Binding
  | .next visited todo => visited ++ todo
  | .keyed visited pair todo => visited ++ pair :: todo
  | .sized visited pair _ todo => visited ++ pair :: todo
  | _ => []

theorem FlushPc.Writing.enumerates {vals : EntryPtr → Bytes} {m : Map} {file : Option Bytes} {flush : FlushPc}
    (h : flush.Writing vals m file) (hiterates : flush.iterates = true) : m.Enumerates flush.order := by
  cases flush with
  | next visited todo => exact h.1
  | keyed visited pair todo => exact h.1
  | sized visited pair n todo => exact h.1
  | _ => cases hiterates

/-- Only what has been written of the entries matters. -/
theorem FlushPc.Writing.congr {vals vals' : EntryPtr → Bytes} {m : Map} {file : Option Bytes}
    {flush : FlushPc} (h : flush.Writing vals m file)
    (hwritten : ∀ pair ∈ flush.written, vals' pair.2 = vals pair.2)
    (hmeasured : ∀ pair ∈ flush.measured, (vals' pair.1.2).length = pair.2) : flush.Writing vals' m file := by
  have hrecords : recordsOf vals' flush.written = recordsOf vals flush.written :=
    List.flatMap_congr fun pair hmem => by rw [hwritten pair hmem]
  cases flush with
  | next visited todo =>
    simp only [written] at hrecords
    exact ⟨h.1, by rw [h.2, hrecords]⟩
  | keyed visited pair todo =>
    simp only [written] at hrecords
    exact ⟨h.1, by rw [h.2, hrecords]⟩
  | sized visited pair n todo =>
    have hn := hmeasured (pair, n) (by simp [measured])
    simp only [written] at hrecords
    exact ⟨h.1, hn.symm, by rw [h.2.2, hrecords]⟩
  | _ => exact h

theorem FlushPc.Writing.measured_eq {vals : EntryPtr → Bytes} {m : Map} {file : Option Bytes}
    {flush : FlushPc}
    (h : flush.Writing vals m file) : ∀ pair ∈ flush.measured, (vals pair.1.2).length = pair.2 := by
  cases flush with
  | sized visited pair n todo =>
    intro p hmem
    rw [List.mem_singleton.1 hmem]
    exact h.2.1.symm
  | _ => exact fun p hmem => nomatch hmem

theorem FlushPc.mem_order {flush : FlushPc} {pair : Binding}
    (h : pair ∈ flush.written ∨ (∃ n, (pair, n) ∈ flush.measured) ∨ pair ∈ flush.unwritten) :
    pair ∈ flush.order := by
  cases flush with
  | next visited todo => simpa [written, measured, unwritten, order] using h
  | keyed visited pair' todo => simpa [written, measured, unwritten, order] using h
  | sized visited pair' n todo =>
    simp only [written, measured, unwritten, List.mem_cons, List.not_mem_nil, or_false, Prod.mk.injEq] at h
    simp only [order, List.mem_append, List.mem_cons]
    rcases h with h | ⟨_, h, -⟩ | h
    · exact .inl h
    · exact .inr (.inl h)
    · exact .inr h
  | _ => simp [written, measured, unwritten] at h

/-- The loop goes on until the flush finishes. -/
theorem World.FlushStep.iterates {w w' : World} {a : Action} (hstep : w.FlushStep a w')
    (h : w.flush.iterates = true) (ha : a ≠ .flushFinish) :
    w'.flush.iterates = true ∧ ∀ pair ∈ w'.flush.unwritten, pair ∈ w.flush.unwritten := by
  cases hstep with
  | skip hflush hdirty => exact ⟨h, fun _ h => h⟩
  | exchange hflush hdirty => simp [hflush, FlushPc.iterates] at h
  | «open» hflush => simp [hflush, FlushPc.iterates] at h
  | load hflush horder => simp [hflush, FlushPc.iterates] at h
  | key hflush => exact ⟨rfl, fun pair hmem => by rw [hflush]; exact hmem⟩
  | size hflush => exact ⟨rfl, fun pair hmem => by rw [hflush]; exact hmem⟩
  | data hflush hjunk => exact ⟨rfl, fun pair hmem => by rw [hflush]; exact List.mem_cons_of_mem _ hmem⟩
  | finish hflush => exact absurd rfl ha

/-! ## Before the moment and after it -/

/-- Up to the moment: what is written is right for the current content. -/
structure World.BeforeMoment (w : World) : Prop where
  coherent : w.Coherent
  iterates : w.flush.iterates = true
  writing : w.flush.Writing w.store.values w.store.root.value w.store.file

/-- From the moment on: what is written is right for the content of the
moment, and so will be what is still to be written. -/
structure World.AfterMoment (vals : EntryPtr → Bytes) (m : Map) (w : World) : Prop where
  coherent : w.Coherent
  iterates : w.flush.iterates = true
  writing : w.flush.Writing vals m w.store.file
  agrees : w.flush.Agrees vals w.store
  sub : Map.Sub m w.store.root.value

theorem World.BeforeMoment.after {w : World} (h : w.BeforeMoment) :
    w.AfterMoment w.store.values w.store.root.value :=
  ⟨h.coherent, h.iterates, h.writing, fun _ _ => rfl, fun _ _ he => he⟩

theorem World.BeforeMoment.step {w w' : World} {a : Action} (h : w.BeforeMoment) (hkeeps : w.KeepsWritten a)
    (ha : a ≠ .flushFinish) (hstep : World.Step w a w') : w'.BeforeMoment := by
  have hmap := hstep.map h.coherent hkeeps.2
  have horder := h.writing.enumerates h.iterates
  have hlt {pair : Binding} (hmem : pair ∈ w.flush.order) : pair.2 < w.store.next :=
    h.coherent.shared.lt_next (horder.mem_iff.1 hmem)
  have hwritten (pair : Binding) (hmem : pair ∈ w.flush.written) :
      w'.store.values pair.2 = w.store.values pair.2 := by
    rcases hstep.values (hlt (FlushPc.mem_order (.inl hmem))) with hsame | ⟨p, hp, he, hvalue⟩
    · exact hsame
    · rw [hvalue, (hkeeps.1 p hp).1 pair hmem he.symm, he]
  have hmeasured (pair : Binding × Nat) (hmem : pair ∈ w.flush.measured) :
      (w'.store.values pair.1.2).length = pair.2 := by
    rcases hstep.values (hlt (FlushPc.mem_order (.inr (.inl ⟨_, hmem⟩)))) with hsame | ⟨p, hp, he, hvalue⟩
    · rw [hsame, h.writing.measured_eq pair hmem]
    · rw [hvalue, (hkeeps.1 p hp).2 pair hmem he.symm]
  refine ⟨hstep.coherent h.coherent, ?_, ?_⟩
  · rcases hstep.flush_or with hflush | ⟨hsame, -⟩
    · exact (hflush.iterates h.iterates ha).1
    · rw [hsame, h.iterates]
  · rcases hstep.flush_or with hflush | ⟨hsame, hfile⟩
    · have hnext := hflush.writing (fun _ => rfl) h.writing fun _ _ => rfl
      obtain ⟨dirty, file, flush, rfl⟩ := hflush.frame
      exact hnext
    · rw [hsame, hfile, hmap]
      exact h.writing.congr hwritten hmeasured

theorem World.AfterMoment.step {vals : EntryPtr → Bytes} {m : Map} {w w' : World} {a : Action}
    (h : w.AfterMoment vals m) (hkeeps : w.KeepsUnwritten a) (ha : a ≠ .flushFinish)
    (hstep : World.Step w a w') :
    w'.AfterMoment vals m := by
  have horder := h.writing.enumerates h.iterates
  obtain ⟨own, hg⟩ := hstep.guarantee h.coherent
  have hvalues {pair : Binding} (hmem : pair ∈ w.flush.unwritten) : w'.store.values pair.2 = vals pair.2 := by
    have hbound := h.sub pair.1 pair.2 (horder.mem_iff.1 (FlushPc.mem_order (.inr (.inr hmem))))
    rcases hstep.values (h.coherent.shared.lt_next hbound) with hsame | ⟨p, hp, he, hvalue⟩
    · rw [hsame, h.agrees pair hmem]
    · rw [hvalue, hkeeps p hp pair hmem he.symm, he, h.agrees pair hmem]
  have hnext : w'.flush.iterates = true ∧ w'.flush.Writing vals m w'.store.file ∧
      ∀ pair ∈ w'.flush.unwritten, pair ∈ w.flush.unwritten := by
    rcases hstep.flush_or with hflush | ⟨hsame, hfile⟩
    · have hiterates := hflush.iterates h.iterates ha
      refine ⟨hiterates.1, hflush.writing (fun hopened => ?_) h.writing h.agrees, hiterates.2⟩
      have hno := h.iterates
      rw [hopened] at hno
      cases hno
    · rw [hsame, hfile]
      exact ⟨h.iterates, h.writing, fun _ hmem => hmem⟩
  exact ⟨hstep.coherent h.coherent, hnext.1, hnext.2.1, fun pair hmem => hvalues (hnext.2.2 pair hmem),
    fun key e he => hg.sub key e (h.sub key e he)⟩

/-! ## Sizes -/

/-- Every string is shorter than `2 ^ 64`, the arguments of the calls too. -/
structure World.Sized (w : World) : Prop where
  store : w.store.Sized
  calls {c : SetCall} : .set c ∈ w.calls → c.key.length < SizeT.modulus ∧ c.value.length < SizeT.modulus

theorem SetCall.Step.sized {s s' : Store} {c c' : SetCall} (h : s.Sized)
    (hc : c.key.length < SizeT.modulus ∧ c.value.length < SizeT.modulus) (hok : c.Ok s)
    (hstep : Step s c s' c') :
    s'.Sized ∧ c'.key.length < SizeT.modulus ∧ c'.value.length < SizeT.modulus := by
  have hempty : ([] : Bytes).length < SizeT.modulus := Nat.two_pow_pos 64
  cases hstep with
  | load => exact ⟨h, hc⟩
  | assignFound hfound => exact ⟨h.assignValue _ hc.2, hc.1, hempty⟩
  | assignNew habsent hroom => exact ⟨(h.makeShared hroom).assignValue _ hc.2, hc.1, hempty⟩
  | count => exact ⟨h.modify _ (h.values _), hc⟩
  | @publish key given value oldv e hsame =>
    refine ⟨⟨fun {key' e'} he' => ?_, h.values, h.addresses⟩, hc⟩
    by_cases hkey : key' = key
    · exact hkey ▸ hc.1
    · have hlookup : s.root.value.lookup key' = some e' := by
        rw [← hok.1.same hsame, ← Finmap.lookup_insert_of_ne oldv.value hkey]
        exact he'
      exact h.keys hlookup
  | retry hchanged => exact ⟨h, hc⟩
  | total => exact ⟨⟨h.keys, h.values, h.addresses⟩, hc⟩
  | window => exact ⟨⟨h.keys, h.values, h.addresses⟩, hc⟩
  | dirty => exact ⟨⟨h.keys, h.values, h.addresses⟩, hc⟩

theorem GetCall.Step.sized {s s' : Store} {c c' : GetCall} (h : s.Sized) (hstep : Step s c s' c') :
    s'.Sized := by
  cases hstep with
  | count => exact h.modify _ (h.values _)
  | _ => exact ⟨h.keys, h.values, h.addresses⟩

theorem World.Step.sized {w w' : World} {a : Action} (h : w.Coherent) (hsized : w.Sized)
    (hstep : World.Step w a w') : w'.Sized := by
  cases hstep with
  | callSet hkey hvalue =>
    refine ⟨hsized.store, fun hmem => ?_⟩
    rcases List.mem_append.1 hmem with hmem | hmem
    · exact hsized.calls hmem
    · cases List.mem_singleton.1 hmem
      exact ⟨hkey, hvalue⟩
  | callGet => exact ⟨hsized.store, fun hmem => hsized.calls (by simpa using hmem)⟩
  | set hi hstep =>
    have hnext := hstep.sized hsized.store (hsized.calls (List.mem_of_getElem? hi)) (h.set_ok hi)
    refine ⟨hnext.1, fun hmem => ?_⟩
    rcases List.mem_or_eq_of_mem_set hmem with hmem | heq
    · exact hsized.calls hmem
    · cases heq
      exact hnext.2
  | get hi hstep => exact ⟨hstep.sized hsized.store, fun hmem => hsized.calls ((mem_set_get hi).1 hmem)⟩
  | flush hflush =>
    obtain ⟨dirty, file, flush, rfl⟩ := hflush.frame
    exact ⟨⟨hsized.store.keys, hsized.store.values, hsized.store.addresses⟩, hsized.calls⟩

/-! ## A whole flush -/

/-- What holds in every state of a server that was started from a file. -/
structure World.Sound (w : World) : Prop where
  coherent : w.Coherent
  sized : w.Sized
  opened : w.flush = .opened → w.store.file = some []

theorem World.sound_start {loader : Loader} {file : Option Bytes} {s : Store}
    (h : Store.openFile loader file = .ok s) : World.Sound { store := s } where
  coherent := World.coherent_start (Store.openFile_loaded h).wf
  sized := ⟨Store.openFile_sized h, fun hmem => nomatch hmem⟩
  opened h := nomatch h

theorem World.FlushStep.opened {w w' : World} {a : Action} (hstep : w.FlushStep a w')
    (h : w.flush = .opened → w.store.file = some []) (hflush' : w'.flush = .opened) :
    w'.store.file = some [] := by
  cases hstep with
  | skip hflush hdirty => exact h hflush'
  | «open» hflush => rfl
  | exchange hflush hdirty => cases hflush'
  | load hflush horder => cases hflush'
  | key hflush => cases hflush'
  | size hflush => cases hflush'
  | data hflush hjunk => cases hflush'
  | finish hflush => cases hflush'

theorem World.Step.sound {w w' : World} {a : Action} (h : w.Sound) (hstep : World.Step w a w') :
    w'.Sound := by
  refine ⟨hstep.coherent h.coherent, hstep.sized h.coherent h.sized, fun hopened => ?_⟩
  rcases hstep.flush_or with hflush | ⟨hsame, hfile⟩
  · exact hflush.opened h.opened hopened
  · rw [hfile, h.opened (hsame ▸ hopened)]

theorem World.run_sound {w w' : World} {as : List Action} (h : w.Sound)
    (hr : Runs.run World.step w as = some w') :
    w'.Sound :=
  Runs.invariant (fun _ _ _ h hs => (World.step_spec hs).sound h) hr h

/-- The size field that loading reads first holds the number of keys. -/
theorem World.Sound.size_lt {w : World} (h : w.Sound) : w.store.root.value.size < 2 ^ 64 :=
  Nat.lt_of_le_of_lt (Store.Wf.size_le ⟨h.coherent.shared.lt_next, h.coherent.shared.inj⟩)
    h.sized.store.addresses

/-- The content can be allocated where its strings can. -/
theorem World.Sound.allocated {w : World} (h : w.Sound) {loader : Loader}
    (halloc : ∀ key value, w.store.content key = some value →
      loader.allocates key.length = true ∧ loader.allocates value.length = true) :
    Store.Allocated loader w.store.content := by
  intro key value hvalue
  obtain ⟨en, hen, rfl⟩ := Option.map_eq_some_iff.1 hvalue
  obtain ⟨e, he, rfl⟩ := Store.entryOf_eq_some.1 hen
  exact ⟨h.sized.store.keys he, h.sized.store.values e, halloc key _ hvalue⟩

/-- Right after the load of the snapshot nothing is written but the number of keys. -/
theorem World.beforeMoment_load {w w' : World} {order : List Binding} (h : w.Sound)
    (hload : w.step (.flushLoad order) = some w') : w'.BeforeMoment := by
  have hcoherent := (World.step_spec hload).coherent h.coherent
  cases World.step_spec hload with
  | flush hflush =>
    cases hflush with
    | load hflush horder =>
      have hopened : w.flush.Writing w.store.values w.store.root.value w.store.file := by
        rw [hflush]
        exact h.opened hflush
      exact ⟨hcoherent, rfl, (FlushStep.load hflush horder).writing (fun _ => rfl) hopened fun _ _ => rfl⟩

/-- **A flush saves the content of one moment between the load of its snapshot
and its end, if up to that moment no step changes an entry already written or
adds a key, and from then on none changes an entry still to be written.** -/
theorem World.run_snapshot {loader₀ : Loader} {file₀ : Option Bytes} {s₀ : Store}
    (hopen : Store.openFile loader₀ file₀ = .ok s₀) {as before after : List Action} {order : List Binding}
    {w₀ w₁ w w₂ w₃ : World} (hstart : Runs.run World.step { store := s₀ } as = some w₀)
    (hload : w₀.step (.flushLoad order) = some w₁) (hbefore : Runs.run World.step w₁ before = some w)
    (hafter : Runs.run World.step w after = some w₂) (hfinish : w₂.step .flushFinish = some w₃)
    (hfirst : .flushFinish ∉ before ++ after) (hwritten : Runs.Along World.step World.KeepsWritten w₁ before)
    (hunwritten : Runs.Along World.step World.KeepsUnwritten w after) :
    Store.SavedAs w₃.store.file w.store.content ∧
      ∀ loader : Loader, (∀ key value, w.store.content key = some value →
          loader.allocates key.length = true ∧ loader.allocates value.length = true) →
        ∃ t, Store.openFile loader w₃.store.file = .ok t ∧ t.content = w.store.content := by
  have hsound₀ := World.run_sound (World.sound_start hopen) hstart
  have hsound := World.run_sound ((World.step_spec hload).sound hsound₀) hbefore
  have hnot (a : Action) (ha : a ∈ before ++ after) : a ≠ .flushFinish := fun heq => hfirst (heq ▸ ha)
  have hnotBefore : Runs.Along World.step (fun _ a => a ≠ .flushFinish) w₁ before :=
    Runs.along_of_forall (fun a ha => hnot a (List.mem_append_left _ ha)) w₁
  have hnotAfter : Runs.Along World.step (fun _ a => a ≠ .flushFinish) w after :=
    Runs.along_of_forall (fun a ha => hnot a (List.mem_append_right _ ha)) w
  have hmoment : w.BeforeMoment :=
    (hwritten.and hnotBefore).invariant
      (fun _ _ _ h hP hs => h.step hP.1 hP.2 (World.step_spec hs)) hbefore
      (World.beforeMoment_load hsound₀ hload)
  have hend : w₂.AfterMoment w.store.values w.store.root.value :=
    (hunwritten.and hnotAfter).invariant
      (fun _ _ _ h hP hs => h.step hP.1 hP.2 (World.step_spec hs)) hafter hmoment.after
  have hsaved : Store.SavedAs w₃.store.file w.store.content := by
    cases World.step_spec hfinish with
    | flush hflush =>
      cases hflush with
      | finish hflush =>
        have hdone := hend.writing
        rw [hflush] at hdone
        rw [Store.content_eq]
        exact hdone.saved
  refine ⟨hsaved, fun loader halloc => ?_⟩
  obtain ⟨t, ht, -, hcontent⟩ := hsaved.openFile hsound.size_lt (hsound.allocated halloc)
  exact ⟨t, ht, hcontent⟩

/-- A key is set. -/
def setOne : List Action := .callSet [97] [1] :: List.replicate 7 (.step 0)

/-- It is set again after a flush has loaded its snapshot, before its size is written. -/
def setAgain : List Action := [.callSet [97] [2, 3], .step 1, .flushKey, .step 1]

/-- The flush and the `set` go on. -/
def goOn : List Action := [.flushSize, .step 1, .flushData [], .step 1]

theorem World.run_snapshot_setAgain :
    ∃ w w₃ : World, Store.SavedAs w₃.store.file w.store.content ∧
      ∀ loader : Loader, (∀ key value, w.store.content key = some value →
          loader.allocates key.length = true ∧ loader.allocates value.length = true) →
        ∃ t, Store.openFile loader w₃.store.file = .ok t ∧ t.content = w.store.content := by
  have hrun : ((Runs.run World.step { store := { root := ⟨1, ∅⟩ } }
      (setOne ++ [.flushExchange, .flushOpen])).any fun w₀ =>
      (w₀.step (.flushLoad [⟨[97], 0⟩])).any fun w₁ => Runs.Along World.step World.KeepsWritten w₁ setAgain &&
        (Runs.run World.step w₁ setAgain).any fun w => Runs.Along World.step World.KeepsUnwritten w goOn &&
          (Runs.run World.step w goOn).any fun w₂ => (w₂.step .flushFinish).isSome) = true := by decide
  simp only [Option.any_eq_true, Bool.and_eq_true, decide_eq_true_eq, Option.isSome_iff_exists] at hrun
  obtain ⟨w₀, hstart, w₁, hload, hwritten, w, hbefore, hunwritten, w₂, hafter, w₃, hfinish⟩ := hrun
  have hopen : Store.openFile {} none = .ok { root := ⟨1, ∅⟩ } := rfl
  exact ⟨w, w₃, World.run_snapshot hopen hstart hload hbefore hafter hfinish (by decide) hwritten hunwritten⟩

/-- It is set again between its size and its bytes. -/
def tornFlush : List Action :=
  [.flushOpen, .flushLoad [⟨[97], 0⟩], .flushKey, .flushSize, .callSet [97] [2, 3], .step 1, .step 1,
    .flushData []]

/-- The file has one byte of the new value, which is not the value of the key at any moment. -/
theorem World.tornFlush_not_snapshot :
    ¬ ∀ (loader : Loader) (file : Option Bytes) (s₀ : Store) (as flush : List Action) (w₀ w₁ : World),
      Store.openFile loader file = .ok s₀ → Runs.run World.step { store := s₀ } as = some w₀ →
        w₀.flush = .idle →
      w₀.store.dirty = true → Runs.run World.step w₀ (.flushExchange :: flush ++ [.flushFinish]) = some w₁ →
      .flushFinish ∉ flush →
      ∃ before after w, .flushExchange :: flush ++ [.flushFinish] = before ++ after ∧
        Runs.run World.step w₀ before = some w ∧
        ∃ t, Store.openFile {} w₁.store.file = .ok t ∧ t.content = w.store.content := by
  intro h
  have hrun : ((Runs.run World.step { store := { root := ⟨1, ∅⟩ } } setOne).any fun w₀ =>
      w₀.flush = .idle && w₀.store.dirty &&
        Runs.Along World.step (fun w _ => w.store.content [97] ≠ some [2]) w₀
          (.flushExchange :: tornFlush ++ [.flushFinish]) &&
        (Runs.run World.step w₀ (.flushExchange :: tornFlush ++ [.flushFinish])).any fun w₁ =>
          w₁.store.content [97] ≠ some [2] && w₁.store.file = some (image [([97], [2])])) = true := by decide
  simp only [Option.any_eq_true, Bool.and_eq_true, decide_eq_true_eq] at hrun
  obtain ⟨w₀, hstart, ⟨⟨hidle, hdirty⟩, hnever⟩, w₁, hflush, hlast, hfile⟩ := hrun
  obtain ⟨before, after, w, hsplit, hw, t, ht, hcontent⟩ :=
    h {} none _ setOne tornFlush w₀ w₁ rfl hstart hidle hdirty hflush (by decide)
  have htorn : t.content [97] = some [2] := by
    rw [hfile, Store.openFile_image (by decide) (by decide)] at ht
    cases ht
    decide
  rw [hcontent] at htorn
  rw [hsplit] at hnever hflush
  cases after with
  | nil =>
    rw [List.append_nil, hw, Option.some.injEq] at hflush
    exact hlast (hflush ▸ htorn)
  | cons a after => exact (hnever.append hw).2.1 htorn

end ConfigServer
