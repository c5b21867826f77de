/-
The value and the count a GET answers with. A SET changes the shared entry in
two steps, it moves the value in and then counts the write, and a GET reads the
two in the other order, the count first. So a GET that loads the count between
the two steps of a SET, or copies the value after a further SET has moved its
own in, answers with a pair that no number of SETs leaves.
-/
import ConfigServer.Snapshot
import ConfigServer.WriteRace

namespace ConfigServer

open Runs

/-! ## Whole pairs -/

/-- The entry at `e` in a store, blank if it is still to be made. -/
def Store.entryAt (s : Store) (e : EntryPtr) : Entry := if e < s.next then s.heap e else {}

/-- The pair an entry has after some whole number of these SETs. -/
def WholePair (base : Entry) (sets : List Bytes) (writes : UInt64) (value : Bytes) : Prop :=
  ∃ k, k ≤ sets.length ∧ writes = base.writes + UInt64.ofNat k ∧ value = (sets.take k).getLastD base.value

/-- The entry a call of `set` is about to move its argument into. -/
def SetCall.assigns? (s : Store) (c : SetCall) : Option EntryPtr :=
  match c.pc with
  | .loaded oldv => some (s.findOrCreate oldv.value c.key).1
  | _ => none

/-- If the call is about to publish, nobody has published since it loaded the root. -/
def SetCall.Publishes (s : Store) (c : SetCall) : Prop :=
  match c.pc with
  | .applied oldv _ => oldv.impl = s.root.impl
  | _ => True

instance (s : Store) (c : SetCall) : Decidable (c.Publishes s) := by
  unfold SetCall.Publishes
  split <;> infer_instance

/-- The entry whose value a GET is about to copy, its count loaded. -/
def Call.copies? : Call → Option EntryPtr
  | .get ⟨_, .readWrites e _ _⟩ => some e
  | _ => none

/-- The call is between moving its value into `e` and counting the write. -/
def Call.assigning (e : EntryPtr) : Call → Bool
  | .set ⟨_, _, _, .assigned _ e'⟩ => e' = e
  | _ => false

namespace World

/-- The SET of the entry `e` that the step begins, by the value the call was given. -/
def setsOf (e : EntryPtr) (w : World) : Action → List Bytes
  | .step j =>
    match w.calls[j]? with
    | some (.set c) => if c.assigns? w.store = some e then [c.given] else []
    | _ => []
  | _ => []

/-- A SET does not change the value that call `i` is about to copy. -/
def SparesCopy (i : Nat) (w : World) (c : SetCall) : Prop :=
  match w.calls[i]?.bind Call.copies? with
  | some e => c.assigns? w.store = some e → (w.store.heap e).value = c.given
  | none => True

instance (i : Nat) (w : World) (c : SetCall) : Decidable (w.SparesCopy i c) := by
  unfold SparesCopy
  split <;> infer_instance

/-- No SET is about to fail to publish. -/
def NoRetry (w : World) : Action → Prop
  | .step j =>
    match w.calls[j]? with
    | some (.set c) => c.Publishes w.store
    | _ => True
  | _ => True

instance (w : World) (a : Action) : Decidable (w.NoRetry a) := by
  unfold NoRetry
  split
  · split <;> infer_instance
  · infer_instance

/-- Call `i` loads the count while no SET is between its two steps on the
entry, and no SET stores another value in the entry before the value is copied. -/
def KeepsPair (i : Nat) (w : World) : Action → Prop
  | .step j =>
    match w.calls[j]? with
    | some (.set c) => w.SparesCopy i c
    | some (.get ⟨_, .readReads e _⟩) => j = i → w.calls.countP (Call.assigning e) = 0
    | _ => True
  | _ => True

instance (i : Nat) (w : World) (a : Action) : Decidable (w.KeepsPair i a) := by
  unfold KeepsPair
  split
  · split <;> infer_instance
  · infer_instance

theorem NoRetry.retryHarmless {w : World} {a : Action} (h : w.NoRetry a) : w.RetryHarmless a := by
  unfold World.RetryHarmless
  split
  · next j =>
    split
    · next c hj =>
      simp only [NoRetry, hj] at h
      unfold SetCall.RetryHarmless
      split
      · next oldv e hpc =>
        simp only [SetCall.Publishes, hpc] at h
        exact fun hne => absurd h hne
      · trivial
    · trivial
  · trivial

end World

/-! ## The count and the value of an entry -/

/-- How the entry `e` stands when `n` calls are between their two steps on it
and `sets` have begun: it has the value of the last of them and the count of
all but `n`. -/
structure Counted (e : EntryPtr) (base : Entry) (s : Store) (n : Nat) (sets : List Bytes) : Prop where
  writes : e < s.next → ∃ k, sets.length = k + n ∧ (s.heap e).writes = base.writes + UInt64.ofNat k
  value : e < s.next → (s.heap e).value = sets.getLastD base.value
  fresh : s.next ≤ e → sets = [] ∧ n = 0 ∧ base.writes = 0

variable {e : EntryPtr} {base : Entry} {s s' : Store} {n n' : Nat} {sets : List Bytes}

/-- A step that leaves the count and the value of `e` alone. -/
theorem Counted.of_eq (h : Counted e base s n sets) (hnext : s.next ≤ s'.next)
    (hlt : e < s'.next → e < s.next) (hwrites : (s'.heap e).writes = (s.heap e).writes)
    (hvalue : (s'.heap e).value = (s.heap e).value) :
    Counted e base s' n sets where
  writes he := by
    rw [hwrites]
    exact h.writes (hlt he)
  value he := by
    rw [hvalue]
    exact h.value (hlt he)
  fresh he := h.fresh (Nat.le_trans hnext he)

/-- A SET moves its value into `e`. -/
theorem Counted.assign (h : Counted e base s n sets) (he : e < s.next) (value : Bytes) :
    Counted e base (s.assignValue e value) (n + 1) (sets ++ [value]) where
  writes _ := by
    obtain ⟨k, hlen, hwrites⟩ := h.writes he
    refine ⟨k, ?_, by simpa [Store.assignValue] using hwrites⟩
    rw [List.length_append, List.length_singleton, hlen, Nat.add_assoc]
  value _ := by simp [Store.assignValue]
  fresh hle := absurd he (Nat.not_lt.2 hle)

/-- A SET makes `e` and moves its value in. -/
theorem Counted.create (h : Counted s.next base s n sets) (value : Bytes) :
    Counted s.next base (s.makeShared.2.assignValue s.next value) (n + 1) (sets ++ [value]) where
  writes _ := by
    obtain ⟨rfl, rfl, hbase⟩ := h.fresh (Nat.le_refl _)
    refine ⟨0, rfl, ?_⟩
    simp [Store.assignValue, Store.makeShared, hbase]
  value _ := by simp [Store.assignValue]
  fresh hle := absurd hle (Nat.not_le.2 (Nat.lt_succ_self s.next))

/-- A SET counts its write. -/
theorem Counted.count (h : Counted e base s (n + 1) sets) (he : e < s.next) :
    Counted e base (s.countWrite e) n sets where
  writes _ := by
    obtain ⟨k, hlen, hwrites⟩ := h.writes he
    refine ⟨k + 1, by omega, ?_⟩
    rw [UInt64.ofNat_add, ← UInt64.add_assoc, ← hwrites]
    simp [Store.countWrite]
  value _ := by
    rw [← h.value he]
    simp [Store.countWrite]
  fresh hle := absurd he (Nat.not_lt.2 hle)

theorem SetCall.Step.counted {c c' : SetCall} (hwf : s.Wf) (hok : c.Ok s) (harg : c.ArgOk s)
    (h : SetCall.Step s c s' c') (hc : Counted e base s n sets)
    (hn : n' + (if Call.assigning e (.set c) then 1 else 0) =
      n + if Call.assigning e (.set c') then 1 else 0) :
    Counted e base s' n' (sets ++ if c.assigns? s = some e then [c.given] else []) := by
  -- A step that neither assigns nor counts.
  have hrest (hnext : s.next ≤ s'.next) (hlt : e < s'.next → e < s.next) (hheap : s'.heap e = s.heap e)
      (hsame : n' = n) : Counted e base s' n' (sets ++ []) := by
    rw [List.append_nil, hsame]
    exact hc.of_eq hnext hlt (by rw [hheap]) (by rw [hheap])
  cases h with
  | load => exact hrest (Nat.le_refl _) id rfl hn
  | @assignFound key given value oldv e' hfound =>
    have hvalue : value = given := harg
    have hassigns : SetCall.assigns? s ⟨key, given, value, .loaded oldv⟩ = some e' := by
      simp [SetCall.assigns?, Store.findOrCreate_found hfound]
    have he' : e' < s.next := hwf.lt_next (hok.rel _ _ hfound)
    rw [hassigns]
    by_cases heq : e' = e
    · subst heq
      have hn' : n' = n + 1 := by simpa [Call.assigning] using hn
      rw [if_pos rfl, hn', hvalue]
      exact hc.assign he' given
    · have hn' : n' = n := by simpa [Call.assigning, heq] using hn
      rw [if_neg (fun h => heq (Option.some.inj h))]
      refine hrest (Nat.le_refl _) id ?_ hn'
      exact Store.modify_heap_of_ne s e' _ (Ne.symm heq)
  | @assignNew key given value oldv habsent hroom =>
    have hvalue : value = given := harg
    have hassigns : SetCall.assigns? s ⟨key, given, value, .loaded oldv⟩ = some s.next := by
      simp [SetCall.assigns?, Store.findOrCreate_absent habsent, Store.makeShared]
    rw [hassigns]
    by_cases heq : s.next = e
    · subst heq
      have hn' : n' = n + 1 := by simpa [Call.assigning] using hn
      rw [if_pos rfl, hn', hvalue]
      exact hc.create given
    · have hn' : n' = n := by simpa [Call.assigning, heq] using hn
      rw [if_neg (fun h => heq (Option.some.inj h))]
      refine hrest (Nat.le_succ _) ?_ ?_ hn'
      · intro hlt
        exact Nat.lt_of_le_of_ne (Nat.le_of_lt_succ hlt) (Ne.symm heq)
      · exact Store.makeShared_heap_of_ne value (Ne.symm heq)
  | @count key given value oldv e' =>
    have he' : e' < s.next := hok.2.lt_next hwf hok.1
    by_cases heq : e' = e
    · subst heq
      have hn' : n = n' + 1 := by simpa [Call.assigning] using hn.symm
      rw [hn'] at hc
      simpa [SetCall.assigns?] using hc.count he'
    · have hn' : n' = n := by simpa [Call.assigning, heq] using hn
      exact hrest (Nat.le_refl _) id (Store.modify_heap_of_ne s e' _ (Ne.symm heq)) hn'
  | publish hsame => exact hrest (Nat.le_refl _) id rfl hn
  | retry hchanged => exact hrest (Nat.le_refl _) id rfl hn
  | total => exact hrest (Nat.le_refl _) id rfl hn
  | window => exact hrest (Nat.le_refl _) id rfl hn
  | dirty => exact hrest (Nat.le_refl _) id rfl hn

/-! ## The pair of a GET -/

theorem WholePair.append {writes : UInt64} {value : Bytes} (h : WholePair base sets writes value)
    (more : List Bytes) : WholePair base (sets ++ more) writes value := by
  obtain ⟨k, hk, hwrites, hvalue⟩ := h
  refine ⟨k, ?_, hwrites, ?_⟩
  · rw [List.length_append]
    omega
  · rw [List.take_append_of_le_length hk, hvalue]

/-- The count a GET has loaded and the value it has copied, or is about to copy, are a whole pair of `e`. -/
def Call.PairOk (e : EntryPtr) (base : Entry) (s : Store) (sets : List Bytes) : Call → Prop
  | .get ⟨_, .readWrites e' _ writes⟩ => e' = e → WholePair base sets writes (s.heap e).value
  | .get ⟨_, .answered e' answer⟩ => e' = e → WholePair base sets answer.writes answer.value
  | _ => True

/-- The pair stays whole if the value is copied already or is not changed. -/
theorem Call.PairOk.append {call : Call} (h : call.PairOk e base s sets) (more : List Bytes)
    (hvalue : call.copies? = some e → (s'.heap e).value = (s.heap e).value) :
    call.PairOk e base s' (sets ++ more) := by
  unfold Call.PairOk at h ⊢
  split
  · next e' reads writes =>
    rintro rfl
    rw [hvalue rfl]
    exact (h rfl).append more
  · next e' answer => exact fun heq => (h heq).append more
  · trivial

/-- A step of the GET itself, which loads the count only where it makes a whole pair with the value. -/
theorem GetCall.step_pairOk {c c' : GetCall} (h : c.step s = some (s', c'))
    (hok : (Call.get c).PairOk e base s sets)
    (hload : ∀ reads, c.pc = .readReads e reads → WholePair base sets (s.heap e).writes (s.heap e).value) :
    (Call.get c').PairOk e base s' sets := by
  obtain ⟨key, pc⟩ := c
  cases pc with
  | readReads e' reads =>
    cases h
    rintro rfl
    exact hload reads rfl
  | readWrites e' reads writes =>
    cases h
    rintro rfl
    exact hok rfl
  | loaded snap =>
    simp only [GetCall.step] at h
    split at h
    · cases h
      trivial
    · cases h
      trivial
  | absent => cases h
  | answered e' answer => cases h
  | _ =>
    cases h
    trivial

namespace World

/-- What holds of the entry `e` and of call `i`, when `sets` have begun on the entry. -/
structure Paired (e : EntryPtr) (base : Entry) (i : Nat) (r₀ : Bytes → UInt64) (w : World)
    (sets : List Bytes) : Prop where
  coherent : w.Coherent
  tracked : w.Tracked r₀
  counted : Counted e base w.store (w.calls.countP (Call.assigning e)) sets
  pair {call : Call} : w.calls[i]? = some call → call.PairOk e base w.store sets

variable {w w' : World} {i : Nat} {a : Action} {r₀ : Bytes → UInt64}

/-- Nobody is between the two steps of a SET: the count and the value make a whole pair. -/
theorem Paired.whole (h : w.Paired e base i r₀ sets) (he : e < w.store.next)
    (hnone : w.calls.countP (Call.assigning e) = 0) :
    WholePair base sets (w.store.heap e).writes (w.store.heap e).value := by
  obtain ⟨k, hlen, hwrites⟩ := h.counted.writes he
  rw [hnone, Nat.add_zero] at hlen
  refine ⟨k, Nat.le_of_eq hlen.symm, hwrites, ?_⟩
  rw [h.counted.value he, List.take_of_length_le (Nat.le_of_eq hlen)]

/-- A call starts. -/
theorem Paired.spawn_pair (h : w.Paired e base i r₀ sets) {call : Call}
    (hcall : call.PairOk e base w.store sets)
    {d : Call} (hd : (w.calls ++ [call])[i]? = some d) : d.PairOk e base w.store sets := by
  rw [List.getElem?_append] at hd
  split at hd
  · exact h.pair hd
  · rw [List.mem_singleton.1 (List.mem_of_getElem? hd)]
    exact hcall

/-- A step of another call, which leaves the value alone that call `i` is about to copy. -/
theorem Paired.other_pair (h : w.Paired e base i r₀ sets) {j : Nat} {call' : Call} {s' : Store}
    (more : List Bytes) (hcall' : j = i → call'.PairOk e base s' (sets ++ more))
    (hvalue : w.calls[i]?.bind Call.copies? = some e → (s'.heap e).value = (w.store.heap e).value) {d : Call}
    (hd : (w.calls.set j call')[i]? = some d) : d.PairOk e base s' (sets ++ more) := by
  by_cases hij : j = i
  · have hmem := hd
    rw [hij, List.getElem?_set_self'] at hmem
    obtain ⟨_, -, rfl⟩ := Option.map_eq_some_iff.1 hmem
    exact hcall' hij
  · rw [List.getElem?_set_ne hij] at hd
    refine (h.pair hd).append more fun hcopies => hvalue ?_
    rw [hd]
    exact hcopies

/-- What a SET begins leaves the value alone that call `i` is about to copy. -/
theorem KeepsPair.value {j : Nat} {c c' : SetCall} {s' : Store} (hkeeps : w.KeepsPair i (.step j))
    (hj : w.calls[j]? = some (.set c)) (hstep : SetCall.Step w.store c s' c') (harg : c.ArgOk w.store)
    (he : e < w.store.next) (hcopies : w.calls[i]?.bind Call.copies? = some e) :
    (s'.heap e).value = (w.store.heap e).value := by
  simp only [KeepsPair, hj, SparesCopy, hcopies] at hkeeps
  rcases hstep.values he with hsame | ⟨oldv, hpc, hfound, hstored⟩
  · exact hsame
  · -- The argument is stored, and it is the value the entry has.
    have hassigns : c.assigns? w.store = some e := by
      simp [SetCall.assigns?, hpc, Store.findOrCreate_found hfound]
    have hvalue : c.value = c.given := by simpa [SetCall.ArgOk, hpc] using harg
    rw [hkeeps hassigns, ← hvalue]
    exact hstored

/-- The entry that call `i` is about to copy has been made. -/
theorem Coherent.copies_lt (h : w.Coherent) (hcopies : w.calls[i]?.bind Call.copies? = some e) :
    e < w.store.next := by
  obtain ⟨call, hi, hcall⟩ := Option.bind_eq_some_iff.1 hcopies
  unfold Call.copies? at hcall
  split at hcall
  · next key e' reads writes =>
    cases hcall
    exact h.shared.lt_next (GetCall.Ok.entry (h.get_ok hi) rfl)
  · cases hcall

theorem Paired.set_step (h : w.Paired e base i r₀ sets) {j : Nat} {c c' : SetCall} {s' : Store}
    (hj : w.calls[j]? = some (.set c)) (hstep : SetCall.Step w.store c s' c')
    (hkeeps : w.KeepsPair i (.step j))
    (hcoherent : World.Coherent { w with store := s', calls := w.calls.set j (.set c') })
    (htracked : World.Tracked r₀ { w with store := s', calls := w.calls.set j (.set c') }) :
    Paired e base i r₀ { w with store := s', calls := w.calls.set j (.set c') }
      (sets ++ w.setsOf e (.step j)) := by
  have hok := h.coherent.set_ok hj
  have harg : c.ArgOk w.store := h.tracked.args _ (List.mem_of_getElem? hj)
  have hsets : w.setsOf e (.step j) = if c.assigns? w.store = some e then [c.given] else [] := by
    simp only [setsOf, hj]
  have hpair (more : List Bytes) : Call.PairOk e base s' more (.set c') := trivial
  rw [hsets]
  refine ⟨hcoherent, htracked, ?_, h.other_pair _ (fun _ => hpair _) ?_⟩
  · exact hstep.counted h.coherent.shared hok harg h.counted (Threads.countP_step _ hj)
  · intro hcopies
    exact hkeeps.value hj hstep harg (h.coherent.copies_lt hcopies) hcopies

theorem Paired.get_step (h : w.Paired e base i r₀ sets) {j : Nat} {c c' : GetCall} {s' : Store}
    (hj : w.calls[j]? = some (.get c)) (hstep : c.step w.store = some (s', c'))
    (hkeeps : w.KeepsPair i (.step j))
    (hcoherent : World.Coherent { w with store := s', calls := w.calls.set j (.get c') })
    (htracked : World.Tracked r₀ { w with store := s', calls := w.calls.set j (.get c') }) :
    Paired e base i r₀ { w with store := s', calls := w.calls.set j (.get c') }
      (sets ++ w.setsOf e (.step j)) := by
  obtain ⟨hvalue, hwrites, hnext⟩ := (GetCall.step_spec hstep).entry e
  have hsets : w.setsOf e (.step j) = [] := by simp only [setsOf, hj]
  rw [hsets]
  refine ⟨hcoherent, htracked, ?_, h.other_pair [] ?_ fun _ => hvalue⟩
  · have hcount : (w.calls.set j (.get c')).countP (Call.assigning e) = w.calls.countP (Call.assigning e) :=
      Threads.countP_step (Call.assigning e) hj
    rw [List.append_nil, hcount]
    exact h.counted.of_eq (Nat.le_of_eq hnext.symm) (fun he => hnext ▸ he) hwrites hvalue
  · intro hij
    subst hij
    rw [List.append_nil]
    refine GetCall.step_pairOk hstep (h.pair hj) fun reads hpc => ?_
    obtain ⟨key, pc⟩ := c
    subst hpc
    have he : e < w.store.next := h.coherent.shared.lt_next (GetCall.Ok.entry (h.coherent.get_ok hj) rfl)
    refine h.whole he ?_
    simpa [KeepsPair, hj] using hkeeps

theorem Paired.step (h : w.Paired e base i r₀ sets) (hretry : w.NoRetry a) (hkeeps : w.KeepsPair i a)
    (hs : w.step a = some w') : w'.Paired e base i r₀ (sets ++ w.setsOf e a) := by
  have hstep := step_spec hs
  have hcoherent := hstep.coherent h.coherent
  have htracked := hstep.tracked h.coherent h.tracked hretry.retryHarmless
  cases hstep with
  | @callSet key value hkey hvalue =>
    have hpair : Call.PairOk e base w.store sets (.set ⟨key, value, value, .entered⟩) := trivial
    rw [show w.setsOf e _ = [] from rfl, List.append_nil]
    refine ⟨hcoherent, htracked, ?_, h.spawn_pair hpair⟩
    rw [Threads.countP_spawn]
    exact h.counted
  | @callGet key =>
    have hpair : Call.PairOk e base w.store sets (.get ⟨key, .entered⟩) := trivial
    rw [show w.setsOf e _ = [] from rfl, List.append_nil]
    refine ⟨hcoherent, htracked, ?_, h.spawn_pair hpair⟩
    rw [Threads.countP_spawn]
    exact h.counted
  | set hj hset => exact h.set_step hj hset hkeeps hcoherent htracked
  | get hj hget =>
    obtain ⟨s, c', hget, heq⟩ := step_get hj hs
    rw [heq] at hcoherent htracked ⊢
    exact h.get_step hj hget hkeeps hcoherent htracked
  | flush hflush =>
    have hsets : w.setsOf e a = [] := by
      cases hflush <;> rfl
    obtain ⟨dirty, file, flush, rfl⟩ := hflush.frame
    rw [hsets, List.append_nil]
    exact ⟨hcoherent, htracked, ⟨h.counted.writes, h.counted.value, h.counted.fresh⟩, h.pair⟩

theorem Paired.start {s₀ : Store} (hs₀ : s₀.Wf) (e : EntryPtr) (i : Nat) :
    Paired e (s₀.entryAt e) i s₀.writesOf { store := s₀ } [] where
  coherent := coherent_start hs₀
  tracked := tracked_start s₀
  counted := by
    refine ⟨?_, ?_, ?_⟩
    · intro he
      exact ⟨0, rfl, by simp [Store.entryAt, if_pos he]⟩
    · intro he
      simp [Store.entryAt, if_pos he]
    · intro hle
      exact ⟨rfl, rfl, by simp [Store.entryAt, if_neg (Nat.not_lt.2 hle)]⟩
  pair h := nomatch h

/-- **If no SET is under way on the entry when a GET loads the count, and none
stores another value before the GET copies it, the GET answers with the pair
that some whole number of SETs leaves.** -/
theorem run_answer_whole {s₀ : Store} (hs₀ : s₀.Wf) {as : List Action} {w : World} {i : Nat} {key : Bytes}
    {e : EntryPtr} {answer : Entry} (hr : run step { store := s₀ } as = some w)
    (hretry : Along step NoRetry { store := s₀ } as) (hkeeps : Along step (KeepsPair i) { store := s₀ } as)
    (hi : w.calls[i]? = some (.get ⟨key, .answered e answer⟩)) :
    WholePair (s₀.entryAt e) (outputs step (setsOf e) { store := s₀ } as) answer.writes answer.value := by
  have hend := (hretry.and hkeeps).history (J := fun w sets => w.Paired e (s₀.entryAt e) i s₀.writesOf sets)
    (fun w a w' sets h hcond hs => h.step hcond.1 hcond.2 hs) hr (Paired.start hs₀ e i)
  exact hend.pair hi rfl

/-- A GET of the key of `oneKey`, up to the loaded count, and a SET of that key. -/
def getAndSet : List Action := .callGet [97] :: List.replicate 7 (.step 0) ++ [.callSet [97] [2], .step 1]

/-- The GET copies the value, then the SET moves its own in. -/
def copyFirst : List Action := getAndSet ++ [.step 0, .step 1]

/-- The SET moves its value in, then the GET copies it. -/
def assignFirst : List Action := getAndSet ++ [.step 1, .step 0]

theorem run_answer_whole_copyFirst :
    ∃ w e answer, run step { store := oneKey } copyFirst = some w ∧
      w.calls[0]? = some (.get ⟨[97], .answered e answer⟩) ∧
      WholePair (oneKey.entryAt e) (outputs step (setsOf e) { store := oneKey } copyFirst)
        answer.writes answer.value := by
  have hcall : (run step { store := oneKey } copyFirst).map (fun w => w.calls[0]?) =
      some (some (.get ⟨[97], .answered 0 ⟨[0], 1, 1⟩⟩)) := by decide
  obtain ⟨w, hr, hi⟩ := Option.map_eq_some_iff.1 hcall
  refine ⟨w, 0, ⟨[0], 1, 1⟩, hr, hi, ?_⟩
  exact run_answer_whole (Store.set_wf Store.wf_empty [97] [0]) hr (by decide) (by decide) hi

/-- The GET answers with the new value and the old count. -/
theorem assignFirst_not_whole :
    ¬ ∀ (s₀ : Store) (as : List Action) (w : World) (i : Nat) (key : Bytes) (e : EntryPtr) (answer : Entry),
      s₀.Wf → run step { store := s₀ } as = some w → Along step NoRetry { store := s₀ } as →
      w.calls[i]? = some (.get ⟨key, .answered e answer⟩) →
      WholePair (s₀.entryAt e) (outputs step (setsOf e) { store := s₀ } as) answer.writes answer.value := by
  intro h
  have hcall : (run step { store := oneKey } assignFirst).map (fun w => w.calls[0]?) =
      some (some (.get ⟨[97], .answered 0 ⟨[2], 1, 1⟩⟩)) := by decide
  obtain ⟨w, hr, hi⟩ := Option.map_eq_some_iff.1 hcall
  have hwhole := h oneKey _ w 0 [97] 0 ⟨[2], 1, 1⟩ (Store.set_wf Store.wf_empty [97] [0]) hr (by decide) hi
  have hsets : outputs step (setsOf 0) { store := oneKey } assignFirst = [[2]] := by decide
  have hbase : oneKey.entryAt 0 = ⟨[0], 0, 1⟩ := by decide
  rw [hsets, hbase] at hwhole
  obtain ⟨k, hk, hwrites, hvalue⟩ := hwhole
  match k, hk with
  | 0, _ => exact absurd hvalue (by decide)
  | 1, _ => exact absurd hwrites (by decide)

end World

end ConfigServer
