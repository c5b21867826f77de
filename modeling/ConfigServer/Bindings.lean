/-
Writers that race lose no key and readers lose no count. A published key stays
bound to the entry it was published with, so a GET increments the entry that
every later root has for the key, however old the snapshot it found it in.
-/
import ConfigServer.ConcurrentFacts

namespace ConfigServer

namespace Store

/-- The reads counted for a key, 0 if it is absent. -/
def readsOf (s : Store) (key : Bytes) : UInt64 := ((s.entryOf key).map Entry.reads).getD 0

/-- The writes counted for a key, 0 if it is absent. -/
def writesOf (s : Store) (key : Bytes) : UInt64 := ((s.entryOf key).map Entry.writes).getD 0

end Store

/-- The GET is one of this key. -/
def Call.found (key : Bytes) : Call → Bool
  | .set _ => false
  | .get c => c.key = key && c.pc.entry?.isSome

/-- It has found the key but not yet counted the read. -/
def Call.pending (key : Bytes) : Call → Bool
  | .set _ => false
  | .get c => c.key = key && c.pc.pending

/-- It has counted the read. -/
def Call.hasRead (key : Bytes) : Call → Bool
  | .set _ => false
  | .get c => c.key = key && c.pc.entry?.isSome && !c.pc.pending

/-- It has published its key. -/
def Call.hasPublished : Call → Option Bytes
  | .set ⟨key, _, _, .published⟩ => some key
  | .set ⟨key, _, _, .countedTotal⟩ => some key
  | .set ⟨key, _, _, .countedWindow⟩ => some key
  | .set ⟨key, _, _, .done⟩ => some key
  | _ => none

/-! ## Entries across a step -/

namespace Store

/-- A change that leaves a field of the entries alone leaves it alone at every key. -/
theorem modify_map {α : Type} (s : Store) (e : EntryPtr) {f : Entry → Entry} {g : Entry → α}
    (hg : ∀ en, g (f en) = g en) (key : Bytes) :
    ((s.modify e f).entryOf key).map g = (s.entryOf key).map g := by
  simp only [entryOf, modify_root, Option.map_map]
  refine Option.map_congr fun e' _ => ?_
  by_cases he : e' = e
  · subst he
    simp [hg]
  · simp [modify_heap_of_ne s e f he]

theorem readsOf_modify (s : Store) (e : EntryPtr) {f : Entry → Entry} (hf : ∀ en, (f en).reads = en.reads)
    (key : Bytes) : (s.modify e f).readsOf key = s.readsOf key := by
  rw [readsOf, modify_map s e hf, readsOf]

theorem writesOf_modify (s : Store) (e : EntryPtr) {f : Entry → Entry} (hf : ∀ en, (f en).writes = en.writes)
    (key : Bytes) : (s.modify e f).writesOf key = s.writesOf key := by
  rw [writesOf, modify_map s e hf, writesOf]

theorem readsOf_assignValue (s : Store) (e : EntryPtr) (value key : Bytes) :
    (s.assignValue e value).readsOf key = s.readsOf key :=
  readsOf_modify s e (f := fun en => { en with value }) (fun _ => rfl) key

theorem readsOf_countWrite (s : Store) (e : EntryPtr) (key : Bytes) :
    (s.countWrite e).readsOf key = s.readsOf key :=
  readsOf_modify s e (f := fun en => { en with writes := en.writes + 1 }) (fun _ => rfl) key

theorem writesOf_assignValue (s : Store) (e : EntryPtr) (value key : Bytes) :
    (s.assignValue e value).writesOf key = s.writesOf key :=
  writesOf_modify s e (f := fun en => { en with value }) (fun _ => rfl) key

theorem writesOf_countRead (s : Store) (e : EntryPtr) (key : Bytes) :
    (s.countRead e).writesOf key = s.writesOf key :=
  writesOf_modify s e (f := fun en => { en with reads := en.reads + 1 }) (fun _ => rfl) key

/-- An entry just made is nobody's. -/
theorem makeShared_entryOf {s : Store} (hwf : s.Wf) (value : Bytes) :
    (s.makeShared.2.assignValue s.next value).entryOf = s.entryOf := by
  funext key
  exact Option.map_congr fun e he => makeShared_heap_of_ne value (Nat.ne_of_lt (hwf.lt_next he))

end Store

/-- Publishing an entry found in the version loaded changes nothing anyone can see. -/
theorem publish_entryOf_found {s : Store} (hwf : s.Wf) {oldv : Box Map} {key : Bytes} {e : EntryPtr}
    (hheld : Box.Held Map.Sub s.root oldv) (hsame : oldv.impl = s.root.impl)
    (hfound : oldv.value.lookup key = some e) :
    Store.entryOf { s with root := ⟨s.root.impl + 1, oldv.value.insert key e⟩ } = s.entryOf := by
  have htarget : Target s oldv key 0 e := .inl hfound
  have hb := publish_binds hwf hheld htarget hsame
  have hen : s.entryOf key = some (s.heap e) := by rw [Store.entryOf, hheld.rel key e hfound, Option.map_some]
  rw [hb.entryOf_eq, ← hen, Function.update_eq_self]

/-- Publishing an entry just made adds its key. -/
theorem publish_entryOf_new {s : Store} (hwf : s.Wf) {oldv : Box Map} {key : Bytes} {writes : UInt64}
    {e : EntryPtr} (hheld : Box.Held Map.Sub s.root oldv) (hsame : oldv.impl = s.root.impl)
    (htarget : Target s oldv key writes e) (habsent : oldv.value.lookup key = none) :
    s.entryOf key = none ∧
      Store.entryOf { s with root := ⟨s.root.impl + 1, oldv.value.insert key e⟩ } =
        Function.update s.entryOf key (some (s.heap e)) ∧
      (s.heap e).reads = 0 ∧ (s.heap e).writes = writes := by
  have hb := publish_binds hwf hheld htarget hsame
  refine ⟨?_, hb.entryOf_eq, ?_⟩
  · rw [Store.entryOf_eq_none, ← hheld.same hsame]
    exact habsent
  · rcases htarget with hfound | ⟨-, -, -, hreads, hwrites⟩
    · exact nomatch hfound.symm.trans habsent
    · exact ⟨hreads, hwrites⟩

/-! ## The reads -/

theorem SetCall.Step.readsOf {s s' : Store} {c c' : SetCall} (hwf : s.Wf) (hok : c.Ok s) (h : Step s c s' c')
    (key : Bytes) : s'.readsOf key = s.readsOf key := by
  cases h with
  | load => rfl
  | assignFound hfound => exact Store.readsOf_assignValue s _ _ key
  | assignNew habsent hroom => rw [Store.readsOf, Store.makeShared_entryOf hwf, Store.readsOf]
  | count => exact Store.readsOf_countWrite s _ key
  | @publish key₀ given value oldv e hsame =>
    rcases hok.2 with hfound | ⟨habsent, -⟩
    · rw [Store.readsOf, publish_entryOf_found hwf hok.1 hsame hfound, Store.readsOf]
    · obtain ⟨hnone, hentries, hreads, -⟩ := publish_entryOf_new hwf hok.1 hsame hok.2 habsent
      rw [Store.readsOf, hentries, Store.readsOf]
      by_cases hkey : key = key₀
      · subst hkey
        rw [Function.update_self, Option.map_some, hreads, hnone]
        rfl
      · rw [Function.update_of_ne hkey]
  | retry hchanged => rfl
  | total => rfl
  | window => rfl
  | dirty => rfl

theorem GetCall.Step.readsOf {s s' : Store} {c c' : GetCall} (hwf : s.Wf) (hok : c.Ok s) (h : Step s c s' c')
    (key : Bytes) :
    s'.readsOf key + (if Call.hasRead key (.get c) then 1 else 0) =
      s.readsOf key + if Call.hasRead key (.get c') then 1 else 0 := by
  cases h with
  | load => simp [Call.hasRead, GetPc.entry?]
  | absent habsent => simp [Call.hasRead, GetPc.entry?]
  | find hfound => simp [Call.hasRead, GetPc.entry?, GetPc.pending]
  | @count key₀ e =>
    have hbound : s.root.value.lookup key₀ = some e := hok e rfl
    rw [Store.readsOf, Store.countRead, Store.modify_entryOf hwf hbound, Store.readsOf]
    by_cases hkey : key = key₀
    · subst hkey
      simp [Call.hasRead, GetPc.entry?, GetPc.pending, Store.entryOf, hbound]
    · simp [Call.hasRead, Function.update_of_ne hkey, Ne.symm hkey]
  | rest hentry hpending hentry' hpending' =>
    simp only [Call.hasRead, hentry, hentry', hpending, hpending']
    rfl

/-- Every read that a GET has counted is in the entry its key has now. -/
def World.ReadsCounted (r₀ : Bytes → UInt64) (w : World) : Prop :=
  ∀ key, w.store.readsOf key = r₀ key + UInt64.ofNat (w.calls.countP (Call.hasRead key))

theorem World.Step.readsCounted {r₀ : Bytes → UInt64} {w w' : World} {a : Action} (h : w.Coherent)
    (hreads : w.ReadsCounted r₀) (hstep : World.Step w a w') : w'.ReadsCounted r₀ := by
  intro key
  cases hstep with
  | callSet hkey hvalue =>
    rw [Threads.countP_spawn]
    exact hreads key
  | callGet =>
    rw [Threads.countP_spawn]
    simpa [Call.hasRead, GetPc.entry?] using hreads key
  | set hi hstep =>
    exact Threads.counter_step hi (hreads key) (congrArg (· + 0) (hstep.readsOf h.shared (h.set_ok hi) key))
  | get hi hstep => exact Threads.counter_step hi (hreads key) (hstep.readsOf h.shared (h.get_ok hi) key)
  | flush hflush =>
    obtain ⟨dirty, file, flush, rfl⟩ := hflush.frame
    exact hreads key

/-- The gets that found a key have counted the read or are about to. -/
theorem countP_found (key : Bytes) (calls : List Call) :
    calls.countP (Call.found key) = calls.countP (Call.hasRead key) + calls.countP (Call.pending key) := by
  induction calls with
  | nil => rfl
  | cons call calls ih =>
    have hone : (if Call.found key call then 1 else 0) =
        (if Call.hasRead key call then 1 else 0) + if Call.pending key call then 1 else 0 := by
      cases call with
      | set c => rfl
      | get c =>
        obtain ⟨key', pc⟩ := c
        by_cases hkey : key' = key
        · cases pc <;> simp [Call.found, Call.hasRead, Call.pending, GetPc.entry?, GetPc.pending, hkey]
        · simp [Call.found, Call.hasRead, Call.pending, hkey]
    rw [List.countP_cons, List.countP_cons, List.countP_cons, ih, hone]
    omega

/-- What holds of the bindings in any state of a run, from a store with these reads. -/
structure World.Kept (r₀ : Bytes → UInt64) (w : World) : Prop where
  /-- A key that has been published is in the root. -/
  published {call : Call} {key : Bytes} : call ∈ w.calls → call.hasPublished = some key →
    ∃ e, w.store.root.value.lookup key = some e
  /-- The entry a GET has found is the one its key is bound to. -/
  found {c : GetCall} {e : EntryPtr} : .get c ∈ w.calls → c.pc.entry? = some e →
    w.store.root.value.lookup c.key = some e
  /-- The reads of a key are those of the GETs that found it, but for the ones not counted yet. -/
  reads (key : Bytes) :
    w.store.readsOf key + UInt64.ofNat (w.calls.countP (Call.pending key)) =
      r₀ key + UInt64.ofNat (w.calls.countP (Call.found key))

theorem World.Coherent.kept {r₀ : Bytes → UInt64} {w : World} (h : w.Coherent) (hreads : w.ReadsCounted r₀) :
    w.Kept r₀ where
  published {call key} hmem hpublished := by
    have hok := h.each hmem
    unfold Call.hasPublished at hpublished
    split at hpublished
    · exact Option.some.inj hpublished ▸ hok
    · exact Option.some.inj hpublished ▸ hok
    · exact Option.some.inj hpublished ▸ hok
    · exact Option.some.inj hpublished ▸ hok
    · cases hpublished
  found hmem hentry := GetCall.Ok.entry (h.each hmem) hentry
  reads key := by
    rw [hreads key, countP_found, UInt64.ofNat_add, UInt64.add_assoc]

theorem World.run_sub {w w' : World} {as : List Action} (h : w.Coherent)
    (hr : Runs.run World.step w as = some w') :
    Map.Sub w.store.root.value w'.store.root.value :=
  Runs.related (R := fun w w' => Map.Sub w.store.root.value w'.store.root.value) (fun _ _ _ he => he)
    (fun h h' => Trans.trans h h') (fun _ _ _ h hs => (World.step_spec hs).coherent h)
    (fun _ _ _ h hs => ((World.step_spec hs).guarantee h).elim fun _ hg => hg.sub) hr h

/-- **In every interleaving, a key once in the root stays there, bound to the
same entry; no key that was published is missing, and no read is lost.** -/
theorem World.run_kept {s₀ : Store} (hs₀ : s₀.Wf) {as bs : List Action} {w w' : World}
    (hw : Runs.run World.step { store := s₀ } as = some w) (hw' : Runs.run World.step w bs = some w') :
    (∀ key e, w.store.root.value.lookup key = some e → w'.store.root.value.lookup key = some e) ∧
      w'.Kept s₀.readsOf := by
  have hstart : ({ store := s₀ } : World).Coherent ∧ ({ store := s₀ } : World).ReadsCounted s₀.readsOf := by
    refine ⟨World.coherent_start hs₀, fun key => ?_⟩
    exact (UInt64.add_zero _).symm
  have hstep (w : World) (a : Action) (w' : World) (h : w.Coherent ∧ w.ReadsCounted s₀.readsOf)
      (hs : w.step a = some w') : w'.Coherent ∧ w'.ReadsCounted s₀.readsOf :=
    ⟨(World.step_spec hs).coherent h.1, (World.step_spec hs).readsCounted h.1 h.2⟩
  have hmiddle := Runs.invariant hstep hw hstart
  have hend := Runs.invariant hstep hw' hmiddle
  exact ⟨World.run_sub hmiddle.1 hw', hend.1.kept hend.2⟩

/-- Two calls create the same key, and the first one publishes it. -/
def racingCreations : List Action :=
  [.callSet [97] [1], .callSet [97] [2], .step 0, .step 1, .step 0, .step 1, .step 0, .step 1, .step 0]

/-- The second one fails to publish, and a GET finds the key. -/
def afterRace : List Action := [.step 1, .callGet [97], .step 2, .step 2, .step 2]

theorem World.run_kept_racingCreations :
    ∃ w w', Runs.run World.step { store := {} } racingCreations = some w ∧
      Runs.run World.step w afterRace = some w' ∧
      (∀ key e, w.store.root.value.lookup key = some e → w'.store.root.value.lookup key = some e) ∧
      w'.Kept ({} : Store).readsOf := by
  obtain ⟨w', hr⟩ : ∃ w', Runs.run World.step { store := {} } (racingCreations ++ afterRace) = some w' :=
    Option.isSome_iff_exists.1 (by decide)
  obtain ⟨w, hw, hw'⟩ := Runs.run_append.1 hr
  exact ⟨w, w', hw, hw', World.run_kept Store.wf_empty hw hw'⟩

end ConfigServer
