/-
Where the values of a shared store come from. Whatever the interleaving, a key
has a value it was loaded with, one that a SET of this key was called with, or
the empty string that a SET of this key leaves when it has to try again; and so
has every answer to a GET of the key. No value gets from one key to another.

This is proved for any relation `W` between keys and values that holds of what
is loaded and of what SETs are called with.

And a key that a call has shown to be there is not missed by any later GET.
-/
import ConfigServer.WriteRace

namespace ConfigServer

open Runs

variable {W : Bytes → Bytes → Prop}

/-- What a call of `set` holds, and what is in an entry of its own, is one of
the values of its key; and so is what a GET has answered. -/
def Call.Confined (W : Bytes → Bytes → Prop) (s : Store) : Call → Prop
  | .set c => W c.key c.value ∧ W c.key [] ∧ ∀ e, (Call.set c).owned = some e → W c.key (s.heap e).value
  | .get ⟨key, .answered _ answer⟩ => W key answer.value
  | .get _ => True

/-- Each key of the root has one of its values. -/
def Store.Confined (W : Bytes → Bytes → Prop) (s : Store) : Prop :=
  ∀ key e, s.root.value.lookup key = some e → W key (s.heap e).value

theorem Store.Confined.content {s : Store} (h : s.Confined W) {key value : Bytes}
    (hvalue : s.content key = some value) : W key value := by
  simp only [Store.content, Store.entryOf, Option.map_map, Option.map_eq_some_iff] at hvalue
  obtain ⟨e, he, rfl⟩ := hvalue
  exact h key e he

theorem Store.confined_iff {s : Store} :
    s.Confined W ↔ ∀ key value, s.content key = some value → W key value := by
  refine ⟨fun h key value hvalue => h.content hvalue, fun h key e he => h key _ ?_⟩
  simp [Store.content, Store.entryOf, he]

/-- A call's own entry is not bound in the root. -/
theorem Call.Ok.owned_unbound {s : Store} {c : Call} (h : c.Ok s) {e : EntryPtr} (he : c.owned = some e) :
    ¬ s.Bound e := by
  have hnot {key : Bytes} {oldv : Box Map} {writes : UInt64} {e₀ : EntryPtr} (ht : Target s oldv key writes e₀)
      (he : (if oldv.value.lookup key = none then some e₀ else none) = some e) : ¬ s.Bound e := by
    split at he
    · next habsent =>
      rw [Option.some.injEq] at he
      rcases ht with hfound | ⟨-, -, hbound, -⟩
      · exact nomatch hfound.symm.trans habsent
      · exact he ▸ hbound
    · cases he
  unfold owned at he
  split at he
  · exact hnot h.2 he
  · exact hnot h.2 he
  · cases he

/-- It is left alone by the other calls. -/
theorem Call.Confined.stable {own : Option EntryPtr} {s s' : Store} (hg : Guarantee own s s') {d : Call}
    (hok : d.Ok s) (hown : ∀ e, own = some e → d.owned ≠ some e) (h : d.Confined W s) : d.Confined W s' := by
  cases d with
  | get c =>
    obtain ⟨key, pc⟩ := c
    cases pc <;> exact h
  | set c =>
    refine ⟨h.1, h.2.1, fun e he => ?_⟩
    rw [hg.heap (hok.owned_lt he) (fun heq => hown e heq he) (hok.owned_unbound he)]
    exact h.2.2 e he

/-- The value of an entry that is changed in place. -/
theorem Store.modify_value {s : Store} {e : EntryPtr} {f : Entry → Entry} (hf : ∀ en, (f en).value = en.value)
    (e' : EntryPtr) : ((s.modify e f).heap e').value = (s.heap e').value := by
  by_cases he : e' = e
  · rw [he, Store.modify_heap_self, hf]
  · rw [Store.modify_heap_of_ne s e f he]

theorem SetCall.Step.confined {s s' : Store} {c c' : SetCall} (hwf : s.Wf) (hok : c.Ok s) (hs : s.Confined W)
    (hc : (Call.set c).Confined W s) (h : Step s c s' c') :
    s'.Confined W ∧ (Call.set c').Confined W s' := by
  obtain ⟨hvalue, hempty, howned⟩ := hc
  have hnone {key given value : Bytes} {pc : SetPc} (hkey : W key value) (hempty : W key [])
      (h : (Call.set ⟨key, given, value, pc⟩).owned = none) {s : Store} :
      (Call.set ⟨key, given, value, pc⟩).Confined W s :=
    ⟨hkey, hempty, fun e he => nomatch h.symm.trans he⟩
  cases h with
  | load => exact ⟨hs, hnone hvalue hempty rfl⟩
  | @assignFound key given value oldv e hfound =>
    refine ⟨fun key' e' he' => ?_, hnone hempty hempty (by simp [Call.owned, hfound])⟩
    by_cases heq : e' = e
    · subst heq
      obtain rfl : key' = key := hwf.inj he' (hok.rel _ _ hfound)
      rw [Store.assignValue, Store.modify_heap_self]
      exact hvalue
    · rw [Store.assignValue, Store.modify_heap_of_ne _ _ _ heq]
      exact hs key' e' he'
  | @assignNew key given value oldv habsent hroom =>
    refine ⟨fun key' e' he' => ?_, hempty, hempty, fun e he => ?_⟩
    · rw [Store.makeShared_heap_of_ne _ (Nat.ne_of_lt (hwf.lt_next he'))]
      exact hs key' e' he'
    · simp only [Call.owned, habsent, if_true, Option.some.injEq] at he
      rw [← he, Store.assignValue, Store.modify_heap_self]
      exact hvalue
  | @count key given value oldv e =>
    have hkeep := Store.modify_value (s := s) (e := e) (f := fun en => { en with writes := en.writes + 1 })
      fun _ => rfl
    refine ⟨fun key' e' he' => ?_, hvalue, hempty, fun e' he' => ?_⟩
    · rw [Store.countWrite, hkeep]
      exact hs key' e' he'
    · rw [Store.countWrite, hkeep]
      exact howned e' he'
  | @publish key given value oldv e hsame =>
    refine ⟨fun key' e' he' => ?_, hnone hvalue hempty rfl⟩
    have hb := publish_binds hwf hok.1 hok.2 hsame
    by_cases hkey : key' = key
    · subst hkey
      obtain rfl : e = e' := Option.some.inj (hb.lookup_self.symm.trans he')
      rcases hok.2 with hfound | ⟨habsent, -⟩
      · exact hs key' e (hok.1.rel _ _ hfound)
      · exact howned e (by simp [Call.owned, habsent])
    · exact hs key' e' ((hb.lookup_of_ne hkey).symm.trans he')
  | retry hchanged => exact ⟨hs, hnone hvalue hempty rfl⟩
  | total => exact ⟨hs, hnone hvalue hempty rfl⟩
  | window => exact ⟨hs, hnone hvalue hempty rfl⟩
  | dirty => exact ⟨hs, hnone hvalue hempty rfl⟩

theorem GetCall.step_confined {s s' : Store} {c c' : GetCall} (hok : c.Ok s) (hs : s.Confined W)
    (h : c.step s = some (s', c')) : s'.Confined W ∧ (Call.get c').Confined W s' := by
  have hstep := GetCall.step_spec h
  have hs' : s'.Confined W := by
    intro key e he
    rw [(hstep.entry e).1]
    exact hs key e (by rwa [hstep.root] at he)
  refine ⟨hs', ?_⟩
  obtain ⟨key, pc⟩ := c
  cases pc with
  | readWrites e reads writes =>
    cases h
    exact hs key e (hok e rfl)
  | loaded snap =>
    simp only [GetCall.step] at h
    split at h
    · cases h
      trivial
    · cases h
      trivial
  | absent => cases h
  | answered e answer => cases h
  | _ =>
    cases h
    trivial

/-- The GET has found its key, or will. -/
def GetPc.Finds (key : Bytes) : GetPc → Prop
  | .loaded snap => ∃ e, snap.value.lookup key = some e
  | .absent => False
  | _ => True

theorem GetPc.Finds.of_entry {key : Bytes} {pc : GetPc} {e : EntryPtr} (h : pc.entry? = some e) :
    pc.Finds key := by
  cases pc with
  | loaded snap => cases h
  | absent => cases h
  | _ => trivial

theorem GetCall.Step.key {s s' : Store} {c c' : GetCall} (h : Step s c s' c') : c'.key = c.key := by
  cases h <;> rfl

theorem GetCall.Step.finds {s s' : Store} {c c' : GetCall} (h : Step s c s' c')
    (hbound : ∃ e, s.root.value.lookup c.key = some e) (hfinds : c.pc.Finds c.key) : c'.pc.Finds c.key := by
  cases h with
  | load => exact hbound
  | absent habsent =>
    obtain ⟨e, he⟩ := hfinds
    exact absurd (habsent.symm.trans he) (Option.some_ne_none e).symm
  | find hfound => trivial
  | count => trivial
  | rest hentry hpending hentry' hpending' => exact .of_entry hentry'

/-! ## Runs -/

namespace World

/-- Every value of the store, of a call and in an answer is one of its key. -/
structure Confined (W : Bytes → Bytes → Prop) (w : World) : Prop where
  coherent : w.Coherent
  store : w.store.Confined W
  calls : ∀ call ∈ w.calls, call.Confined W w.store

/-- A SET is called with one of the values of its key. -/
def Action.Confined (W : Bytes → Bytes → Prop) : Action → Prop
  | .callSet key value => W key value ∧ W key []
  | _ => True

theorem Confined.step {w w' : World} {a : Action} (h : w.Confined W) (ha : Action.Confined W a)
    (hs : w.step a = some w') : w'.Confined W := by
  have hstep := step_spec hs
  have hcoherent := hstep.coherent h.coherent
  have hspawn {call : Call} (hcall : call.Confined W w.store) (d : Call) (hd : d ∈ w.calls ++ [call]) :
      d.Confined W w.store := by
    rcases List.mem_append.1 hd with hd | hd
    · exact h.calls d hd
    · exact List.mem_singleton.1 hd ▸ hcall
  cases hstep with
  | callSet hkey hvalue =>
    exact ⟨hcoherent, h.store, hspawn ⟨ha.1, ha.2, fun e he => nomatch he⟩⟩
  | callGet => exact ⟨hcoherent, h.store, hspawn trivial⟩
  | set hi hstep =>
    have hok := h.coherent.set_ok hi
    have hg := hstep.guarantee h.coherent.shared hok
    obtain ⟨hstore, hcall⟩ :=
      hstep.confined h.coherent.shared hok h.store (h.calls _ (List.mem_of_getElem? hi))
    exact ⟨hcoherent, hstore, h.coherent.each_step h.calls hi hcall fun u hu hapart hA => hA.stable hg hu hapart⟩
  | @get i c c' s hi hstep =>
    obtain ⟨s', c'', hc, heq⟩ := step_get hi hs
    have hok := h.coherent.get_ok hi
    have hg := (GetCall.step_spec hc).guarantee hok
    obtain ⟨hstore, hconfined⟩ := GetCall.step_confined hok h.store hc
    rw [heq] at hcoherent ⊢
    exact ⟨hcoherent, hstore,
      h.coherent.each_step h.calls hi hconfined fun u hu hapart hA => hA.stable hg hu hapart⟩
  | flush hflush =>
    obtain ⟨dirty, file, flush, rfl⟩ := hflush.frame
    have hg : Guarantee none w.store { w.store with dirty, file } :=
      .of_root rfl (Nat.le_refl _) fun _ _ _ => rfl
    exact ⟨hcoherent, h.store, fun call hmem =>
      (h.calls call hmem).stable hg (h.coherent.each hmem) fun e he => nomatch he⟩

theorem run_confined {s₀ : Store} (hs₀ : s₀.Wf) (hcontent : s₀.Confined W) {as : List Action} {w : World}
    (hsets : ∀ a ∈ as, Action.Confined W a) (hr : run step { store := s₀ } as = some w) : w.Confined W :=
  (along_of_forall hsets { store := s₀ }).invariant (fun _ _ _ h ha hs => h.step ha hs) hr
    ⟨coherent_start hs₀, hcontent, fun _ hmem => nomatch hmem⟩

/-- The value was loaded for the key, or a SET of the key was called with it,
or it is the empty string and there was a SET of the key. -/
def Written (s₀ : Store) (as : List Action) (key value : Bytes) : Prop :=
  s₀.content key = some value ∨ ∃ given, .callSet key given ∈ as ∧ (value = given ∨ value = [])

theorem run_confined_written {s₀ : Store} (hs₀ : s₀.Wf) {as : List Action} {w : World}
    (hr : run step { store := s₀ } as = some w) : w.Confined (Written s₀ as) := by
  refine run_confined hs₀ (Store.confined_iff.2 fun key value h => .inl h) (fun a ha => ?_) hr
  cases a with
  | callSet key value => exact ⟨.inr ⟨value, ha, .inl rfl⟩, .inr ⟨value, ha, .inr rfl⟩⟩
  | _ => trivial

/-- **No value comes out of nowhere, or from another key.** In every state of
every run the values of the store, and the values GETs have been answered with,
were written to their keys. -/
theorem run_written {s₀ : Store} (hs₀ : s₀.Wf) {as : List Action} {w : World}
    (hr : run step { store := s₀ } as = some w) :
    (∀ key value, w.store.content key = some value → Written s₀ as key value) ∧
      ∀ key e answer, .get ⟨key, .answered e answer⟩ ∈ w.calls → Written s₀ as key answer.value := by
  have h := run_confined_written hs₀ hr
  exact ⟨fun key value => h.store.content, fun key e answer hmem => h.calls _ hmem⟩

/-- Two SETs race on a key, and a GET is answered with the empty string that the second attempt leaves. -/
def raceThenGet : List Action :=
  raceWith [97] [1] [97] [2] ++ .callGet [97] :: List.replicate 8 (.step 2)

theorem run_written_race :
    ∃ w e reads writes, run step { store := oneKey } raceThenGet = some w ∧
      .get ⟨[97], .answered e ⟨[], reads, writes⟩⟩ ∈ w.calls ∧ Written oneKey raceThenGet [97] [] := by
  have hcalls : (run step { store := oneKey } raceThenGet).map (fun w => w.calls[2]?) =
      some (some (.get ⟨[97], .answered 0 ⟨[], 1, 4⟩⟩)) := by decide
  obtain ⟨w, hr, hget⟩ := Option.map_eq_some_iff.1 hcalls
  have hmem := List.mem_of_getElem? hget
  exact ⟨w, 0, 1, 4, hr, hmem, (run_written (Store.set_wf Store.wf_empty [97] [0]) hr).2 [97] 0 _ hmem⟩

/-! ## A key that is there is found -/

/-- Every GET of the key from call `n` on has found it, or has loaded a root that binds it. -/
structure Found (key : Bytes) (n : Nat) (w : World) : Prop where
  coherent : w.Coherent
  bound : ∃ e, w.store.root.value.lookup key = some e
  finds {i : Nat} {c : GetCall} : n ≤ i → w.calls[i]? = some (.get c) → c.key = key → c.pc.Finds key

theorem Found.step {w w' : World} {a : Action} {key : Bytes} {n : Nat} (h : w.Found key n)
    (hs : w.step a = some w') : w'.Found key n := by
  have hstep := step_spec hs
  have hcoherent := hstep.coherent h.coherent
  obtain ⟨own, hg⟩ := hstep.guarantee h.coherent
  have hbound : ∃ e, w'.store.root.value.lookup key = some e := h.bound.imp fun e he => hg.sub key e he
  have hspawn {call : Call} (hcall : ∀ {c}, call = .get c → c.pc.Finds key) {i : Nat} {c : GetCall}
      (hle : n ≤ i) (hi : (w.calls ++ [call])[i]? = some (.get c)) (hkey : c.key = key) : c.pc.Finds key := by
    rw [List.getElem?_append] at hi
    split at hi
    · exact h.finds hle hi hkey
    · exact hcall (List.mem_singleton.1 (List.mem_of_getElem? hi)).symm
  refine ⟨hcoherent, hbound, fun {i d} hle hi hkey => ?_⟩
  cases hstep with
  | callSet hshort hvalue => exact hspawn (fun heq => by cases heq) hle hi hkey
  | callGet =>
    refine hspawn (fun heq => ?_) hle hi hkey
    cases heq
    trivial
  | @set j c c' s hj hstep =>
    by_cases hij : j = i
    · subst hij
      rw [List.getElem?_set_self (List.getElem?_eq_some_iff.1 hj).1] at hi
      cases hi
    · rw [List.getElem?_set_ne hij] at hi
      exact h.finds hle hi hkey
  | @get j c c' s hj hstep =>
    by_cases hij : j = i
    · subst hij
      rw [List.getElem?_set_self (List.getElem?_eq_some_iff.1 hj).1] at hi
      cases hi
      have hsame : c.key = key := hstep.key.symm.trans hkey
      rw [← hsame] at h ⊢
      exact hstep.finds h.bound (h.finds hle hj rfl)
    · rw [List.getElem?_set_ne hij] at hi
      exact h.finds hle hi hkey
  | flush hflush =>
    obtain ⟨dirty, file, flush, rfl⟩ := hflush.frame
    exact h.finds hle hi hkey

/-- A call has shown that the store has the key: a SET of it has been published, or a GET has found it. -/
def Shown (key : Bytes) (w : World) : Prop :=
  (w.store.content key).isSome = true ∨
    ∃ call ∈ w.calls, call.hasPublished = some key ∨ call.found key = true

theorem Coherent.bound_of_shown {w : World} (h : w.Coherent) {key : Bytes} (hshown : w.Shown key) :
    ∃ e, w.store.root.value.lookup key = some e := by
  rcases hshown with hcontent | ⟨call, hmem, hpublished | hfound⟩
  · rw [Store.content, Store.entryOf, Option.isSome_map, Option.isSome_map] at hcontent
    exact Option.isSome_iff_exists.1 hcontent
  · have hok := h.each hmem
    unfold Call.hasPublished at hpublished
    split at hpublished
    · exact Option.some.inj hpublished ▸ hok
    · exact Option.some.inj hpublished ▸ hok
    · exact Option.some.inj hpublished ▸ hok
    · exact Option.some.inj hpublished ▸ hok
    · cases hpublished
  · cases call with
    | set c => cases hfound
    | get c =>
      simp only [Call.found, Bool.and_eq_true, decide_eq_true_eq] at hfound
      obtain ⟨e, he⟩ := Option.isSome_iff_exists.1 hfound.2
      exact ⟨e, hfound.1 ▸ (GetCall.Ok.entry (h.each hmem) he)⟩

theorem Coherent.found {w : World} (h : w.Coherent) {key : Bytes} (hshown : w.Shown key) :
    w.Found key w.calls.length :=
  ⟨h, h.bound_of_shown hshown, fun hle hj _ => absurd (List.getElem?_eq_some_iff.1 hj).1 (Nat.not_lt.2 hle)⟩

/-- **A key that is there is found.** When a key has been loaded, or a SET of it
has published it, or a GET has found it, no GET that starts later is told that it
is not found, whatever the interleaving. -/
theorem run_found {s₀ : Store} (hs₀ : s₀.Wf) {as bs : List Action} {w w' : World}
    (hw : run step { store := s₀ } as = some w) (hw' : run step w bs = some w') {key : Bytes}
    (hshown : w.Shown key) {i : Nat} (hlater : w.calls.length ≤ i) {pc : GetPc}
    (hi : w'.calls[i]? = some (.get ⟨key, pc⟩)) : pc ≠ .absent := by
  have hcoherent := run_coherent (coherent_start hs₀) hw
  have hfound : w'.Found key w.calls.length :=
    invariant (fun _ _ _ h hs => h.step hs) hw' (hcoherent.found hshown)
  rintro rfl
  exact hfound.finds hlater hi rfl

/-- A GET starts when the SET of its key has published, and is not through. -/
theorem run_found_published :
    ∃ w w', run step { store := {} } (.callSet [97] [1] :: List.replicate 4 (.step 0)) = some w ∧
      run step w (.callGet [97] :: List.replicate 2 (.step 1)) = some w' ∧
      ∃ pc, w'.calls[1]? = some (.get ⟨[97], pc⟩) ∧ pc ≠ .absent := by
  have hcalls : (run step { store := {} } (.callSet [97] [1] :: List.replicate 4 (.step 0))).bind (fun w =>
      (run step w (.callGet [97] :: List.replicate 2 (.step 1))).map fun w' => (w.calls, w'.calls[1]?)) =
      some ([.set ⟨[97], [1], [], .published⟩], some (.get ⟨[97], .found 0⟩)) := by decide
  obtain ⟨w, hw, hrest⟩ := Option.bind_eq_some_iff.1 hcalls
  obtain ⟨w', hw', heq⟩ := Option.map_eq_some_iff.1 hrest
  obtain ⟨hset, hget⟩ := Prod.mk.inj heq
  have hshown : w.Shown [97] := .inr ⟨_, hset ▸ List.mem_singleton_self _, .inl rfl⟩
  have hlater : w.calls.length ≤ 1 := by rw [hset]; rfl
  exact ⟨w, w', hw, hw', _, hget, run_found Store.wf_empty hw hw' hshown hlater hget⟩

end World

end ConfigServer
