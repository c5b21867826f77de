/-
What racing writers leave behind. The function `set` passes to `atom::update`
has side effects: it moves the value out of the argument and counts the write
in the entry, in place. `atom::update` asks for a pure function, because it
calls it again when another writer has published in between. A call that has
to try again therefore stores an empty string, and counts its write twice if
its key existed. Only a retry of a call that was given the empty string for a
key still absent is harmless. A run without any other retry leaves each key
with the value of one of its calls and one write counted for each.
-/
import ConfigServer.Bindings

namespace ConfigServer

/-- The call is about to fail to publish only if it was given the empty
string and its key was absent from the version it loaded. -/
def SetCall.RetryHarmless (s : Store) (c : SetCall) : Prop :=
  match c.pc with
  | .applied oldv _ => oldv.impl ≠ s.root.impl → c.given = [] ∧ oldv.value.lookup c.key = none
  | _ => True

instance (s : Store) : (c : SetCall) → Decidable (c.RetryHarmless s)
  | ⟨key, given, _, .applied oldv _⟩ =>
    inferInstanceAs (Decidable (oldv.impl ≠ s.root.impl → given = [] ∧ oldv.value.lookup key = none))
  | ⟨_, _, _, .entered⟩ => instDecidableTrue
  | ⟨_, _, _, .loaded _⟩ => instDecidableTrue
  | ⟨_, _, _, .assigned _ _⟩ => instDecidableTrue
  | ⟨_, _, _, .published⟩ => instDecidableTrue
  | ⟨_, _, _, .countedTotal⟩ => instDecidableTrue
  | ⟨_, _, _, .countedWindow⟩ => instDecidableTrue
  | ⟨_, _, _, .done⟩ => instDecidableTrue

/-- The step is no harmful retry. -/
def World.RetryHarmless (w : World) : Action → Prop
  | .step i =>
    match w.calls[i]? with
    | some (.set c) => c.RetryHarmless w.store
    | _ => True
  | _ => True

instance (w : World) : (a : Action) → Decidable (w.RetryHarmless a)
  | .step i => ofCall w.calls[i]?
  | .callSet _ _ => instDecidableTrue
  | .callGet _ => instDecidableTrue
  | .flushExchange => instDecidableTrue
  | .flushOpen => instDecidableTrue
  | .flushLoad _ => instDecidableTrue
  | .flushKey => instDecidableTrue
  | .flushSize => instDecidableTrue
  | .flushData _ => instDecidableTrue
  | .flushFinish => instDecidableTrue
where
  ofCall : (found : Option Call) →
      Decidable (match found with
        | some (.set c) => c.RetryHarmless w.store
        | _ => True)
    | some (.set c) => inferInstanceAs (Decidable (c.RetryHarmless w.store))
    | some (.get _) => instDecidableTrue
    | none => instDecidableTrue

/-- Every call of `set` has returned. -/
def World.AllReturned (w : World) : Prop := ∀ c, .set c ∈ w.calls → c.pc = .done

/-- The call is one of `set` for this key, and meets `p`. -/
def Call.setOn (p : SetCall → Bool) (key : Bytes) : Call → Bool
  | .set c => c.key = key && p c
  | .get _ => false

/-- What the calls of `set` leave behind, from the store they started on: each
key named by a call has the value one of its calls was given, and every key
has as many writes more as there are calls on it. -/
def World.SetOutcome (s₀ : Store) (w : World) : Prop :=
  (∀ c, .set c ∈ w.calls →
    ∃ d, .set d ∈ w.calls ∧ d.key = c.key ∧ w.store.content c.key = some d.given) ∧
  ∀ key, w.store.writesOf key =
    s₀.writesOf key + UInt64.ofNat (w.calls.countP (Call.setOn (fun _ => true) key))

/-! ## What a call has done so far -/

/-- The write is counted in the entry the key has in the root. -/
def SetCall.hasWritten (c : SetCall) : Bool :=
  match c.pc with
  | .entered => false
  | .loaded _ => false
  | .assigned _ _ => false
  | .applied oldv _ => (oldv.value.lookup c.key).isSome
  | .published => true
  | .countedTotal => true
  | .countedWindow => true
  | .done => true

/-- The value has been moved into the entry the key has in the root. -/
def SetCall.hasAssigned (c : SetCall) : Bool :=
  match c.pc with
  | .assigned oldv _ => (oldv.value.lookup c.key).isSome
  | _ => c.hasWritten

/-- The argument is still the one given, and so is the value of an entry the call has made. -/
def SetCall.ArgOk (s : Store) (c : SetCall) : Prop :=
  match c.pc with
  | .entered => c.value = c.given
  | .loaded _ => c.value = c.given
  | .assigned oldv e => c.value = [] ∧ (oldv.value.lookup c.key = none → (s.heap e).value = c.given)
  | .applied oldv e => c.value = [] ∧ (oldv.value.lookup c.key = none → (s.heap e).value = c.given)
  | _ => True

def Call.ArgOk (s : Store) : Call → Prop
  | .set c => c.ArgOk s
  | .get _ => True

theorem Call.ArgOk.stable {own : Option EntryPtr} {s s' : Store} (hg : Guarantee own s s') {d : Call}
    (hok : d.Ok s) (hown : ∀ e, own = some e → d.owned ≠ some e) (h : d.ArgOk s) : d.ArgOk s' := by
  have htarget {key given : Bytes} {oldv : Box Map} {writes : UInt64} {e : EntryPtr}
      (ht : Target s oldv key writes e)
      (hown : oldv.value.lookup key = none → own ≠ some e)
      (hvalue : oldv.value.lookup key = none → (s.heap e).value = given)
      (habsent : oldv.value.lookup key = none) :
      (s'.heap e).value = given := by
    rcases ht with hfound | ⟨-, hlt, hbound, -⟩
    · exact nomatch hfound.symm.trans habsent
    · rw [hg.heap hlt (hown habsent) hbound, hvalue habsent]
  cases d with
  | get c => trivial
  | set c =>
    obtain ⟨key, given, value, pc⟩ := c
    cases pc with
    | assigned oldv e =>
      refine ⟨h.1, htarget hok.2 (fun habsent heq => hown e heq ?_) h.2⟩
      simp [owned, habsent]
    | applied oldv e =>
      refine ⟨h.1, htarget hok.2 (fun habsent heq => hown e heq ?_) h.2⟩
      simp [owned, habsent]
    | _ => exact h

/-! ## The step of a call -/

/-- A change of an entry that is not in the root changes no key. -/
theorem Store.modify_entryOf_unbound {s : Store} {e : EntryPtr} (h : ¬ s.Bound e) (f : Entry → Entry) :
    (s.modify e f).entryOf = s.entryOf := by
  funext key
  refine Option.map_congr fun e' he' => Store.modify_heap_of_ne s e f ?_
  rintro rfl
  exact h ⟨key, he'⟩

namespace SetCall

variable {s s' : Store} {c c' : SetCall}

theorem Step.key (h : Step s c s' c') : c'.key = c.key := by cases h <;> rfl

theorem Step.given (h : Step s c s' c') : c'.given = c.given := by cases h <;> rfl

theorem Step.argOk (hharmless : c.RetryHarmless s) (harg : c.ArgOk s) (h : Step s c s' c') : c'.ArgOk s' := by
  cases h with
  | load => exact harg
  | assignFound hfound => exact ⟨rfl, fun habsent => nomatch hfound.symm.trans habsent⟩
  | assignNew habsent hroom =>
    refine ⟨rfl, fun _ => Eq.trans ?_ harg⟩
    simp [Store.assignValue]
  | count => exact ⟨harg.1, fun habsent => by simpa [Store.countWrite] using harg.2 habsent⟩
  | publish hsame => trivial
  | retry hchanged => exact harg.1.trans (hharmless hchanged).1.symm
  | total => trivial
  | window => trivial
  | dirty => trivial

theorem Step.writesOf (hwf : s.Wf) (hok : c.Ok s) (hharmless : c.RetryHarmless s) (h : Step s c s' c')
    (key : Bytes) :
    s'.writesOf key + (if Call.setOn hasWritten key (.set c) then 1 else 0) =
      s.writesOf key + if Call.setOn hasWritten key (.set c') then 1 else 0 := by
  cases h with
  | load => simp [Call.setOn, hasWritten]
  | assignFound hfound => simp [Call.setOn, hasWritten, Store.writesOf_assignValue]
  | assignNew habsent hroom => simp [Call.setOn, hasWritten, Store.writesOf, Store.makeShared_entryOf hwf]
  | @count key₀ given value oldv e =>
    rw [Store.writesOf, Store.countWrite]
    rcases hok.2 with hfound | ⟨habsent, -, hbound, -⟩
    · have hlookup := hok.1.rel _ e hfound
      rw [Store.modify_entryOf hwf hlookup, Store.writesOf]
      by_cases hkey : key = key₀
      · subst hkey
        simp [Call.setOn, hasWritten, hfound, Store.entryOf, hlookup]
      · simp [Call.setOn, Function.update_of_ne hkey, Ne.symm hkey]
    · rw [Store.modify_entryOf_unbound hbound, Store.writesOf]
      simp [Call.setOn, hasWritten, habsent]
  | @publish key₀ given value oldv e hsame =>
    rw [Store.writesOf]
    rcases hok.2 with hfound | ⟨habsent, -⟩
    · rw [publish_entryOf_found hwf hok.1 hsame hfound, Store.writesOf]
      simp [Call.setOn, hasWritten, hfound]
    · obtain ⟨hnone, hentries, -, hwrites⟩ := publish_entryOf_new hwf hok.1 hsame hok.2 habsent
      rw [hentries, Store.writesOf]
      by_cases hkey : key = key₀
      · subst hkey
        simp [Call.setOn, hasWritten, habsent, hnone, hwrites]
      · simp [Call.setOn, Function.update_of_ne hkey, Ne.symm hkey]
  | retry hchanged => simp [Call.setOn, hasWritten, (hharmless hchanged).2]
  | total => rfl
  | window => rfl
  | dirty => rfl

/-- A step changes the content at most at the call's own key. There it leaves
the given value, or changes nothing and the call has not just moved its value in. -/
theorem Step.content (hwf : s.Wf) (hok : c.Ok s) (hharmless : c.RetryHarmless s) (harg : c.ArgOk s)
    (h : Step s c s' c') :
    (∀ key, key ≠ c.key → s'.content key = s.content key) ∧
      (s'.content c.key = some c.given ∨
        s'.content c.key = s.content c.key ∧ (c'.hasAssigned = true → c.hasAssigned = true)) := by
  cases h with
  | load => exact ⟨fun _ _ => rfl, .inr ⟨rfl, fun h => absurd h Bool.false_ne_true⟩⟩
  | @assignFound key₀ given value oldv e hfound =>
    have hentries := Store.modify_entryOf hwf (hok.rel _ _ hfound) fun en => { en with value }
    have hcontent (key : Bytes) : (s.assignValue e value).content key =
        (Function.update s.entryOf key₀ (some { s.heap e with value }) key).map Entry.value :=
      congrArg (fun f => (f key).map Entry.value) hentries
    refine ⟨fun key hkey => ?_, .inl ?_⟩
    · rw [hcontent, Function.update_of_ne hkey, Store.content]
    · rw [hcontent, Function.update_self]
      exact congrArg some harg
  | @assignNew key₀ given value oldv habsent hroom =>
    have hcontent (key : Bytes) : (s.makeShared.2.assignValue s.next value).content key = s.content key := by
      rw [Store.content, Store.makeShared_entryOf hwf, Store.content]
    exact ⟨fun key _ => hcontent key, .inr ⟨hcontent key₀, fun h => by simp [hasAssigned, habsent] at h⟩⟩
  | @count key₀ given value oldv e =>
    have hcontent (key : Bytes) : (s.countWrite e).content key = s.content key :=
      Store.modify_map s e (f := fun en => { en with writes := en.writes + 1 }) (fun _ => rfl) key
    exact ⟨fun key _ => hcontent key, .inr ⟨hcontent key₀, fun h => h⟩⟩
  | @publish key₀ given value oldv e hsame =>
    rcases hok.2 with hfound | ⟨habsent, -⟩
    · have hentries := publish_entryOf_found hwf hok.1 hsame hfound
      refine ⟨fun key _ => ?_, .inr ⟨?_, fun _ => ?_⟩⟩
      · rw [Store.content, hentries, Store.content]
      · rw [Store.content, hentries, Store.content]
      · simp [hasAssigned, hasWritten, hfound]
    · obtain ⟨-, hentries, -⟩ := publish_entryOf_new hwf hok.1 hsame hok.2 habsent
      refine ⟨fun key hkey => ?_, .inl ?_⟩
      · rw [Store.content, hentries, Function.update_of_ne hkey, Store.content]
      · rw [Store.content, hentries, Function.update_self, Option.map_some, harg.2 habsent]
  | retry hchanged => exact ⟨fun _ _ => rfl, .inr ⟨rfl, fun h => absurd h Bool.false_ne_true⟩⟩
  | total => exact ⟨fun _ _ => rfl, .inr ⟨rfl, fun h => h⟩⟩
  | window => exact ⟨fun _ _ => rfl, .inr ⟨rfl, fun h => h⟩⟩
  | dirty => exact ⟨fun _ _ => rfl, .inr ⟨rfl, fun h => h⟩⟩

end SetCall

theorem GetCall.Step.writesOf {s s' : Store} {c c' : GetCall} (h : Step s c s' c') (key : Bytes) :
    s'.writesOf key = s.writesOf key := by
  cases h with
  | count => exact Store.writesOf_countRead s _ key
  | _ => rfl

theorem GetCall.Step.content {s s' : Store} {c c' : GetCall} (h : Step s c s' c') (key : Bytes) :
    s'.content key = s.content key := by
  cases h with
  | count => exact Store.modify_map s _ (f := fun en => { en with reads := en.reads + 1 }) (fun _ => rfl) key
  | _ => rfl

/-! ## Runs -/

/-- What a run without a harmful retry keeps, from a store with these writes. -/
structure World.Tracked (r₀ : Bytes → UInt64) (w : World) : Prop where
  args : ∀ call ∈ w.calls, call.ArgOk w.store
  writes (key : Bytes) :
    w.store.writesOf key = r₀ key + UInt64.ofNat (w.calls.countP (Call.setOn SetCall.hasWritten key))
  values {c : SetCall} : .set c ∈ w.calls → c.hasAssigned = true →
    ∃ d, .set d ∈ w.calls ∧ d.key = c.key ∧ w.store.content c.key = some d.given

/-- A step of a call keeps the key and the argument of every call. -/
theorem mem_set_call {calls : List Call} {i : Nat} {c c' d : SetCall} (hi : calls[i]? = some (.set c))
    (hkey : c'.key = c.key) (hgiven : c'.given = c.given) (hd : .set d ∈ calls) :
    ∃ d', .set d' ∈ calls.set i (.set c') ∧ d'.key = d.key ∧ d'.given = d.given := by
  obtain ⟨j, hj⟩ := List.mem_iff_getElem?.1 hd
  by_cases hij : i = j
  · subst hij
    rw [hi, Option.some.injEq, Call.set.injEq] at hj
    subst hj
    exact ⟨c', List.mem_set (List.getElem?_eq_some_iff.1 hi).1 _, hkey, hgiven⟩
  · exact ⟨d, List.mem_of_getElem? ((List.getElem?_set_ne hij).trans hj), rfl, rfl⟩

/-- A call that has just started has done nothing. -/
theorem World.Tracked.spawn {r₀ : Bytes → UInt64} {w : World} (ht : w.Tracked r₀) {call : Call}
    (harg : call.ArgOk w.store) (hentered : ∀ c, call = .set c → c.pc = .entered) :
    World.Tracked r₀ { w with calls := w.calls ++ [call] } := by
  refine ⟨fun u hmem => ?_, fun key => ?_, fun {c} hmem hassigned => ?_⟩
  · rcases List.mem_append.1 hmem with hmem | hmem
    · exact ht.args u hmem
    · rw [List.mem_singleton.1 hmem]
      exact harg
  · have hnot : Call.setOn SetCall.hasWritten key call = false := by
      cases call with
      | get c => rfl
      | set c => simp [Call.setOn, SetCall.hasWritten, hentered c rfl]
    rw [Threads.countP_spawn, hnot]
    exact ht.writes key
  · rcases List.mem_append.1 hmem with hmem | hmem
    · exact (ht.values hmem hassigned).imp fun d hd => ⟨List.mem_append_left _ hd.1, hd.2⟩
    · have hpc := hentered c (List.mem_singleton.1 hmem).symm
      simp [SetCall.hasAssigned, SetCall.hasWritten, hpc] at hassigned

/-- After the step of a call of `set` the value of each key is the one the step
has moved in, or the one the key had before it. -/
theorem World.Tracked.values_step {r₀ : Bytes → UInt64} {w : World} (ht : w.Tracked r₀) {i : Nat}
    {c c' : SetCall} {s : Store} (hi : w.calls[i]? = some (.set c)) (hstep : SetCall.Step w.store c s c')
    (hother : ∀ key, key ≠ c.key → s.content key = w.store.content key)
    (hself : s.content c.key = some c.given ∨
      s.content c.key = w.store.content c.key ∧ (c'.hasAssigned = true → c.hasAssigned = true))
    {d : SetCall} (hmem : .set d ∈ w.calls.set i (.set c')) (hassigned : d.hasAssigned = true) :
    ∃ d', .set d' ∈ w.calls.set i (.set c') ∧ d'.key = d.key ∧ s.content d.key = some d'.given := by
  have hold {d : SetCall} (hd : .set d ∈ w.calls) (hassigned : d.hasAssigned = true)
      (hsame : s.content d.key = w.store.content d.key) :
      ∃ d', .set d' ∈ w.calls.set i (.set c') ∧ d'.key = d.key ∧ s.content d.key = some d'.given := by
    obtain ⟨d₀, hd₀, hkey₀, hcontent⟩ := ht.values hd hassigned
    obtain ⟨d', hd', hkey', hgiven'⟩ := mem_set_call hi hstep.key hstep.given hd₀
    exact ⟨d', hd', hkey'.trans hkey₀, by rw [hsame, hcontent, hgiven']⟩
  by_cases hkey : d.key = c.key
  · rcases hself with hvalue | ⟨hsame, hassigned'⟩
    · have hlt := (List.getElem?_eq_some_iff.1 hi).1
      exact ⟨c', List.mem_set hlt _, hstep.key.trans hkey.symm, by rw [hkey, hvalue, hstep.given]⟩
    · rcases List.mem_or_eq_of_mem_set hmem with hmem | heq
      · exact hold hmem hassigned (by rw [hkey, hsame])
      · cases heq
        rw [hkey]
        exact hold (List.mem_of_getElem? hi) (hassigned' hassigned) hsame
  · rcases List.mem_or_eq_of_mem_set hmem with hmem | heq
    · exact hold hmem hassigned (hother _ hkey)
    · cases heq
      exact absurd hstep.key hkey

theorem World.Step.tracked {r₀ : Bytes → UInt64} {w w' : World} {a : Action} (h : w.Coherent)
    (ht : w.Tracked r₀) (hharmless : w.RetryHarmless a) (hstep : World.Step w a w') : w'.Tracked r₀ := by
  cases hstep with
  | callSet hkey hvalue =>
    refine ht.spawn rfl fun c heq => ?_
    cases heq
    rfl
  | callGet => exact ht.spawn trivial fun c heq => nomatch heq
  | @set i c c' s hi hstep =>
    have hok := h.set_ok hi
    have harg : c.ArgOk w.store := ht.args _ (List.mem_of_getElem? hi)
    have hretry : c.RetryHarmless w.store := by simpa only [World.RetryHarmless, hi] using hharmless
    have hg := hstep.guarantee h.shared hok
    obtain ⟨hother, hself⟩ := hstep.content h.shared hok hretry harg
    refine ⟨?_, fun key => ?_, ht.values_step hi hstep hother hself⟩
    · exact h.each_step ht.args hi (hstep.argOk hretry harg) fun u hu hapart hA => hA.stable hg hu hapart
    · exact Threads.counter_step hi (ht.writes key) (hstep.writesOf h.shared hok hretry key)
  | @get i c c' s hi hstep =>
    have hok := h.get_ok hi
    refine ⟨?_, fun key => ?_, fun {d} hmem hassigned => ?_⟩
    · exact h.each_step ht.args hi trivial fun u hu hapart hA => hA.stable (hstep.guarantee hok) hu hapart
    · exact Threads.counter_step hi (ht.writes key) (congrArg (· + 0) (hstep.writesOf key))
    · obtain ⟨d', hd', hkey', hcontent⟩ := ht.values ((mem_set_get hi).1 hmem) hassigned
      exact ⟨d', (mem_set_get hi).2 hd', hkey', (hstep.content _).trans hcontent⟩
  | flush hflush =>
    obtain ⟨dirty, file, flush, rfl⟩ := hflush.frame
    exact ⟨fun call hmem => ht.args call hmem, ht.writes, ht.values⟩

theorem World.tracked_start (s : Store) : World.Tracked s.writesOf { store := s } where
  args _ h := nomatch h
  writes _ := (UInt64.add_zero _).symm
  values h := nomatch h

/-- **In a run without a harmful retry, once all calls of `set` have returned
each key has the value of one of its calls and one write for each.** -/
theorem World.run_setOutcome {s₀ : Store} (hs₀ : s₀.Wf) {as : List Action} {w : World}
    (halong : Runs.Along World.step World.RetryHarmless { store := s₀ } as)
    (hr : Runs.run World.step { store := s₀ } as = some w) (hreturned : w.AllReturned) : w.SetOutcome s₀ := by
  have hstart : ({ store := s₀ } : World).Coherent ∧ ({ store := s₀ } : World).Tracked s₀.writesOf :=
    ⟨World.coherent_start hs₀, World.tracked_start s₀⟩
  have hend : w.Coherent ∧ w.Tracked s₀.writesOf := by
    refine halong.invariant (I := fun w => w.Coherent ∧ w.Tracked s₀.writesOf)
      (fun w a w' h hharmless hs => ?_) hr hstart
    have hstep := World.step_spec hs
    exact ⟨hstep.coherent h.1, hstep.tracked h.1 h.2 hharmless⟩
  refine ⟨fun c hmem => hend.2.values hmem ?_, fun key => ?_⟩
  · rw [SetCall.hasAssigned, hreturned c hmem]
    simp [SetCall.hasWritten, hreturned c hmem]
  · rw [hend.2.writes]
    refine congrArg (fun n => s₀.writesOf key + UInt64.ofNat n) (List.countP_congr fun call hmem => ?_)
    cases call with
    | get c => rfl
    | set c => simp [Call.setOn, SetCall.hasWritten, hreturned c hmem]

/-- Two calls load the same root and apply their functions; the second call
publishes, so the first one tries again. -/
def raceWith (key₀ value₀ key₁ value₁ : Bytes) : List Action :=
  [.callSet key₀ value₀, .callSet key₁ value₁, .step 0, .step 1, .step 0, .step 0, .step 1, .step 1,
    .step 1] ++
    List.replicate 8 (.step 0) ++ List.replicate 3 (.step 1)

/-- The call that tries again was given the empty string for a new key. -/
theorem World.run_setOutcome_emptyValue :
    ∃ w, Runs.run World.step { store := {} } (raceWith [97] [] [98] [1]) = some w ∧ w.SetOutcome {} := by
  have hcalls : (Runs.run World.step { store := {} } (raceWith [97] [] [98] [1])).map World.calls =
      some [.set ⟨[97], [], [], .done⟩, .set ⟨[98], [1], [], .done⟩] := by decide
  obtain ⟨w, hr, hdone⟩ := Option.map_eq_some_iff.1 hcalls
  refine ⟨w, hr, World.run_setOutcome Store.wf_empty (by decide) hr fun c hmem => ?_⟩
  rw [hdone] at hmem
  simp only [List.mem_cons, List.not_mem_nil, or_false, Call.set.injEq] at hmem
  rcases hmem with rfl | rfl
  · rfl
  · rfl

/-- A store with one key. -/
def oneKey : Store := ({} : Store).set [97] [0]

/-- Two calls race on an existing key: the one that tries again leaves an empty value. -/
theorem World.race_not_setOutcome :
    ¬ ∀ (s₀ : Store) (as : List Action) (w : World), s₀.Wf → Runs.run World.step { store := s₀ } as = some w →
      w.AllReturned → w.SetOutcome s₀ := by
  intro h
  have hcalls : (Runs.run World.step { store := oneKey } (raceWith [97] [1] [97] [2])).map
      (fun w => (w.calls, w.store.content [97])) =
        some ([.set ⟨[97], [1], [], .done⟩, .set ⟨[97], [2], [], .done⟩], some []) := by decide
  obtain ⟨w, hr, heq⟩ := Option.map_eq_some_iff.1 hcalls
  obtain ⟨hdone, hcontent⟩ := Prod.mk.inj heq
  have hmem {c : SetCall} (hc : .set c ∈ w.calls) :
      c = ⟨[97], [1], [], .done⟩ ∨ c = ⟨[97], [2], [], .done⟩ := by
    rw [hdone] at hc
    simpa using hc
  have hreturned : w.AllReturned := fun c hc => by
    rcases hmem hc with rfl | rfl
    · rfl
    · rfl
  have houtcome := h oneKey _ w (Store.set_wf Store.wf_empty [97] [0]) hr hreturned
  obtain ⟨d, hd, -, hvalue⟩ := houtcome.1 ⟨[97], [1], [], .done⟩ (by simp [hdone])
  rw [hcontent] at hvalue
  rcases hmem hd with rfl | rfl
  · cases hvalue
  · cases hvalue

end ConfigServer
