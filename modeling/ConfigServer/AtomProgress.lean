/-
The calls on an `immer::atom` get through, the spinlock included. A call that is
not done can go on, unless it tries to take the lock while another call has it;
and then that one can. Tries in vain aside a call takes few steps: six for a
`load`, and for an `update` fifteen and ten for every other update that is
published. How often a call tries in vain is up to the scheduling of the others.
-/
import Mathlib.Data.Fintype.EquivFin
import ConfigServer.AtomRetries

namespace ConfigServer

open RefHeap Runs

variable {α : Type}

namespace AtomPc

/-- The next step is `try_lock`. -/
def tries : AtomPc α → Bool
  | .entered => true
  | .made _ _ => true
  | _ => false

/-- Only a call of `load` gets here. -/
def reads : AtomPc α → Bool
  | .seen _ _ => true
  | .done (some _) => true
  | _ => false

/-- How many steps a call has taken since it last ran its function. An attempt that fails is over after
five, so a call that has not run it yet counts as many before it starts. -/
def sinceRun : AtomPc α → Nat
  | .made _ _ => 0
  | .relocked _ _ => 1
  | .same _ _ => 2
  | .differs _ _ => 2
  | .assigning _ _ => 3
  | .failed _ _ => 3
  | .swapped _ _ _ => 4
  | .failedNew _ => 4
  | .assigned _ _ => 5
  | .entered => 5
  | .returning _ _ => 6
  | .locked => 6
  | .unlocked _ _ => 7
  | .copying _ => 7
  | .newDestroyed _ _ => 8
  | .copied _ => 8
  | .oldDestroyed _ => 9
  | .loaded _ => 9
  | .seen _ _ => 10
  | .done none => 10
  | .done (some _) => 11

theorem tries_of_holdsLock {pc : AtomPc α} (h : pc.holdsLock = true) : pc.tries = false := by
  cases pc <;> first | rfl | cases h

theorem sinceRun_le (pc : AtomPc α) : pc.sinceRun ≤ if pc.reads then 11 else 10 := by
  cases pc with
  | done seen => cases seen <;> simp [sinceRun, reads]
  | _ => simp [sinceRun, reads]

end AtomPc

namespace RefcountAtomImpl

variable {s s' s₁ : RefcountAtomImpl α} {pc pc' : AtomPc α} {fn : Option (α → α)} {i : Nat} {t : AtomThread α}
  {as : List Action} {a : Action}

/-- Which call takes the step. -/
def Action.call : Action → Nat
  | .step i => i
  | .make i _ => i

/-- The step is a try to take the lock while another call has it. -/
def spins (s : RefcountAtomImpl α) : Action → Bool
  | .step i => s.lock && s.threads[i]?.any fun t => t.pc.tries
  | .make _ _ => false

/-- Call `i` can take a step that is not such a try. -/
def CanGoOn (s : RefcountAtomImpl α) (i : Nat) : Prop :=
  ∃ a s', a.call = i ∧ s.step a = some s' ∧ s.spins a = false

/-- The step, unless it is a try to take the lock in vain. -/
def unspun (s : RefcountAtomImpl α) (a : Action) : List Action := if s.spins a then [] else [a]

theorem spins_step (hi : s.threads[i]? = some t) : s.spins (.step i) = (s.lock && t.pc.tries) := by
  rw [spins, hi, Option.any_some]

/-! ## A try in vain changes nothing -/

theorem stepPc_spins (hlock : s.lock = true) (htries : pc.tries = true) : s.stepPc fn pc = some (s, pc) := by
  cases pc with
  | entered => rw [stepPc, tryLock, if_pos hlock]
  | made p q => rw [stepPc, tryLock, if_pos hlock]
  | _ => cases htries

theorem eq_of_spins (hspins : s.spins a = true) (hs : s.step a = some s') : s' = s := by
  obtain ⟨i, t, s₁, pc', hi, rfl, ⟨rfl, hstep⟩ | ⟨address, rfl, -⟩⟩ := step_cases hs
  · rw [spins_step hi, Bool.and_eq_true] at hspins
    cases (stepPc_spins hspins.1 hspins.2).symm.trans hstep
    obtain ⟨hlt, hget⟩ := List.getElem?_eq_some_iff.1 hi
    have hsame : s.threads.set i { t with pc := t.pc } = s.threads := by
      rw [← hget]
      exact List.set_getElem_self hlt
    rw [resume, hsame]
  · cases hspins

/-- The steps of a run that are not tries in vain are a run too, to the same state. -/
theorem run_unspun (hr : run step s as = some s') : run step s (outputs step unspun s as) = some s' := by
  refine run_outputs (f := id) (fun s a s' hs => ?_) hr
  unfold unspun
  split
  · next hspins => rw [eq_of_spins hspins hs, run_nil]
  · exact run_singleton hs

/-! ## Somebody can go on -/

/-- A call that is not done has a next step, which runs its function if it has loaded the value for it. -/
theorem stepPc_isSome (hdone : ∀ seen, pc ≠ .done seen) (hload : ∀ p, pc = .loaded p → fn = none) :
    (s.stepPc fn pc).isSome = true := by
  cases pc with
  | loaded p =>
    cases hv : s.heap.value? p with
    | none => simp [stepPc, hload p rfl, hv]
    | some v => simp [stepPc, hload p rfl, hv]
  | done seen => exact absurd rfl (hdone seen)
  | _ => rfl

theorem Sound.free_address (h : s.Sound) : ∃ address, s.heap address = none := by
  obtain ⟨address, hnew⟩ := Infinite.exists_notMem_finset (s.impl :: s.threads.flatMap (·.pc.refs)).toFinset
  exact ⟨address, h.shared.counted.free fun hmem => hnew (List.mem_toFinset.2 hmem)⟩

theorem Sound.make_isSome (h : s.Sound) (hi : s.threads[i]? = some t) {f : α → α} (hfn : t.fn = some f) {p : Nat}
    (hpc : t.pc = .loaded p) : ∃ address, (s.make t address).isSome = true := by
  obtain ⟨address, hfree⟩ := h.free_address
  obtain ⟨v, hv⟩ := h.held hi p (by rw [hpc]; exact List.mem_singleton_self p)
  refine ⟨address, ?_⟩
  simp only [make, hfn, hpc, hv, Option.isSome_map, Heap.alloc, hfree, Option.isNone_none, if_true,
    Option.isSome_some]

/-- A call that does not wait for the lock can go on. -/
theorem Sound.canGoOn (h : s.Sound) (hi : s.threads[i]? = some t) (hdone : ∀ seen, t.pc ≠ .done seen)
    (hlock : t.pc.tries = true → s.lock = false) : s.CanGoOn i := by
  by_cases hmakes : ∃ f p, t.fn = some f ∧ t.pc = .loaded p
  · obtain ⟨f, p, hfn, hpc⟩ := hmakes
    obtain ⟨address, hmake⟩ := h.make_isSome hi hfn hpc
    obtain ⟨r, hr⟩ := Option.isSome_iff_exists.1 hmake
    refine ⟨.make i address, resume i t r, rfl, ?_, rfl⟩
    rw [RefcountAtomImpl.step, h.shared.fault, if_neg Bool.false_ne_true]
    simp only [hi, Option.bind_some, hr, Option.map_some]
  · have hload (p : Nat) (hpc : t.pc = .loaded p) : t.fn = none := by
      cases hfn : t.fn with
      | none => rfl
      | some f => exact absurd ⟨f, p, hfn, hpc⟩ hmakes
    obtain ⟨r, hr⟩ := Option.isSome_iff_exists.1 (stepPc_isSome (s := s) hdone hload)
    refine ⟨.step i, resume i t r, rfl, ?_, ?_⟩
    · rw [RefcountAtomImpl.step, h.shared.fault, if_neg Bool.false_ne_true]
      simp only [hi, Option.bind_some, hr, Option.map_some]
    · rw [spins_step hi]
      cases htries : t.pc.tries with
      | false => rw [Bool.and_false]
      | true => rw [hlock htries, Bool.false_and]

/-- While the lock is set there is a call that has it, and it can go on. -/
theorem Sound.holder (h : s.Sound) (hlock : s.lock = true) :
    ∃ j u, s.threads[j]? = some u ∧ u.pc.holdsLock = true ∧ s.CanGoOn j := by
  have hholder : 0 < s.threads.countP (·.pc.holdsLock) := by
    rw [h.shared.lock, if_pos hlock]
    exact Nat.one_pos
  obtain ⟨u, hu, hholds⟩ := List.countP_pos_iff.1 hholder
  obtain ⟨j, hj⟩ := List.mem_iff_getElem?.1 hu
  refine ⟨j, u, hj, hholds, h.canGoOn hj (fun seen hpc => ?_) fun htries => ?_⟩
  · rw [hpc] at hholds
    cases hholds
  · rw [AtomPc.tries_of_holdsLock hholds] at htries
    cases htries

/-- A call is done, or it can go on, or it waits for the lock and the call that has it can go on. -/
theorem Sound.progress (h : s.Sound) (hi : s.threads[i]? = some t) :
    (∃ seen, t.pc = .done seen) ∨ s.CanGoOn i ∨
      t.pc.tries = true ∧ ∃ j u, s.threads[j]? = some u ∧ u.pc.holdsLock = true ∧ s.CanGoOn j := by
  by_cases hdone : ∃ seen, t.pc = .done seen
  · exact .inl hdone
  by_cases hwaits : t.pc.tries = true ∧ s.lock = true
  · exact .inr (.inr ⟨hwaits.1, h.holder hwaits.2⟩)
  · refine .inr (.inl (h.canGoOn hi (fun seen hpc => hdone ⟨seen, hpc⟩) fun htries => ?_))
    rw [Bool.eq_false_iff]
    exact fun hlock => hwaits ⟨htries, hlock⟩

/-! ## How many steps a call takes -/

end RefcountAtomImpl

namespace AtomThread

variable {t : AtomThread α} {n e others : Nat}

/-- A call that has taken `n` steps, tries in vain aside, and has run its function `e` times. -/
structure Paced (t : AtomThread α) (n e : Nat) : Prop where
  steps : n + 5 = 10 * e + t.pc.sinceRun
  load : t.fn = none → e = 0
  update : t.pc.reads = true → t.fn = none

/-- The steps it can take, when this many others have published an update. -/
def maxSteps (t : AtomThread α) (others : Nat) : Nat :=
  match t.fn with
  | none => 6
  | some _ => 10 * others + 15

theorem Paced.le (h : t.Paced n e) (he : e ≤ others + 1) : n ≤ t.maxSteps others := by
  have hsteps := h.steps
  have hsince := t.pc.sinceRun_le
  unfold maxSteps
  cases hfn : t.fn with
  | none =>
    have hzero := h.load hfn
    dsimp only
    split at hsince <;> omega
  | some f =>
    have hreads : t.pc.reads = false := by
      by_contra hreads
      have hnone := h.update (by simpa using hreads)
      rw [hfn] at hnone
      cases hnone
    rw [hreads, if_neg Bool.false_ne_true] at hsince
    dsimp only
    omega

end AtomThread

namespace RefcountAtomImpl

variable {s s' s₁ : RefcountAtomImpl α} {pc pc' : AtomPc α} {fn : Option (α → α)} {i : Nat} {t : AtomThread α}
  {as : List Action} {a : Action}

/-- Each call has taken the steps of `as` that are its own. -/
structure Paced (s : RefcountAtomImpl α) (as : List Action) : Prop where
  call {i : Nat} {t : AtomThread α} : s.threads[i]? = some t →
    t.Paced (as.countP fun a => a.call = i) (evaluations i as)

theorem paced_start (address : Nat) (v : α) (fns : List (Option (α → α))) : (start address v fns).Paced [] where
  call hi := by
    obtain ⟨fn, -, rfl⟩ := List.mem_map.1 (List.mem_of_getElem? hi)
    exact ⟨rfl, fun _ => rfl, fun hreads => nomatch hreads⟩

/-- A step that is not a try in vain takes the call one further. -/
theorem stepPc_sinceRun (hs : s.stepPc fn pc = some (s₁, pc'))
    (hheld : ∀ p ∈ pc.refs, ∃ v, s.heap.value? p = some v) (hspins : (s.lock && pc.tries) = false) :
    pc'.sinceRun = pc.sinceRun + 1 ∧ (pc'.reads = true → pc.reads = true ∨ fn = none) := by
  have htry {spinning got : AtomPc α} (htries : pc.tries = true) :
      s.tryLock spinning got = ({ s with lock := true }, got) := by
    rw [htries, Bool.and_true] at hspins
    rw [tryLock, if_neg (by simp [hspins])]
  cases pc with
  | entered =>
    rw [stepPc, htry rfl] at hs
    cases hs
    exact ⟨rfl, fun h => absurd h Bool.false_ne_true⟩
  | made p q =>
    rw [stepPc, htry rfl] at hs
    cases hs
    exact ⟨rfl, fun h => absurd h Bool.false_ne_true⟩
  | loaded p =>
    obtain ⟨v, hv⟩ := hheld p (List.mem_singleton_self p)
    cases fn with
    | none =>
      simp only [stepPc, hv, Option.some.injEq, Prod.mk.injEq] at hs
      obtain ⟨-, rfl⟩ := hs
      exact ⟨rfl, fun _ => .inr rfl⟩
    | some f => cases hs
  | relocked p q =>
    by_cases hsame : p = s.impl
    · rw [stepPc, if_pos hsame] at hs
      cases hs
      exact ⟨rfl, fun h => absurd h Bool.false_ne_true⟩
    · rw [stepPc, if_neg hsame] at hs
      cases hs
      exact ⟨rfl, fun h => absurd h Bool.false_ne_true⟩
  | seen p v =>
    cases hs
    exact ⟨rfl, fun _ => .inl rfl⟩
  | done seen => cases hs
  | _ =>
    cases hs
    exact ⟨rfl, fun h => absurd h Bool.false_ne_true⟩

/-- A call takes a step, and the others stay. -/
theorem Paced.resume (h : s.Paced as) (hi : s.threads[i]? = some t) (hthreads : s₁.threads = s.threads)
    (hcall : a.call = i) {ran : Nat} (hran : (if a.evaluates i then 1 else 0) = ran)
    (ht : AtomThread.Paced { t with pc := pc' } (as.countP (fun a => a.call = i) + 1) (evaluations i as + ran)) :
    (RefcountAtomImpl.resume i t (s₁, pc')).Paced (as ++ [a]) where
  call {j u} hj := by
    rw [evaluations_append, List.countP_append, List.countP_singleton, hcall]
    obtain ⟨rfl, rfl⟩ | ⟨hij, hj⟩ := resume_threads hi hthreads hj
    · rw [decide_eq_true rfl, if_pos rfl, hran]
      exact ht
    · have hquiet : a.evaluates j = false := by
        cases a with
        | step k => rfl
        | make k address => exact decide_eq_false fun heq => hij (hcall.symm.trans heq)
      rw [hquiet, decide_eq_false hij, if_neg Bool.false_ne_true]
      exact h.call hj

theorem Paced.step (h : s.Paced as) (hsound : s.Sound) (hs : s.step a = some s') :
    s'.Paced (as ++ s.unspun a) := by
  unfold unspun
  split
  · next hspins =>
    rw [List.append_nil, eq_of_spins hspins hs]
    exact h
  · next hspins =>
    obtain ⟨i, t, s₁, pc', hi, rfl, ⟨rfl, hstep⟩ | ⟨address, rfl, hmake⟩⟩ := step_cases hs
    · rw [spins_step hi, Bool.not_eq_true] at hspins
      obtain ⟨hsince, hreads⟩ := stepPc_sinceRun hstep (hsound.held hi) hspins
      obtain ⟨hsteps, hload, hupdate⟩ := h.call hi
      refine h.resume hi (hsound.stepPc_moves hi hstep).threads rfl (if_neg Bool.false_ne_true)
        ⟨?_, hload, fun hr => ?_⟩
      · dsimp only
        omega
      · exact (hreads hr).elim hupdate id
    · obtain ⟨f, p, v, hfn, hpc, -, rfl, heap, rfl, -⟩ := make_spec (hsound.counted hi) hmake
      obtain ⟨hsteps, -, -⟩ := h.call hi
      refine h.resume hi rfl rfl (if_pos (decide_eq_true rfl)) ⟨?_, fun hnone => ?_, fun hr => nomatch hr⟩
      · rw [hpc, AtomPc.sinceRun] at hsteps
        simp only [AtomPc.sinceRun]
        omega
      · rw [hfn] at hnone
        cases hnone

/-- Each call gets through. In every state a call is done, or it can take a step that is not a try to take the
lock while another call has it, or it waits for the lock and the call that has it can take such a step. And of
these steps a `load` takes six, an `update` fifteen and ten for each other update that has been published. -/
theorem run_progress {address : Nat} {v : α} {fns : List (Option (α → α))}
    (hr : run step (start address v fns) as = some s) :
    (∀ i t, s.threads[i]? = some t → (∃ seen, t.pc = .done seen) ∨ s.CanGoOn i ∨
      t.pc.tries = true ∧ ∃ j u, s.threads[j]? = some u ∧ u.pc.holdsLock = true ∧ s.CanGoOn j) ∧
    ∃ order : List Nat, order.Nodup ∧ (∀ i, i ∈ order ↔ ∃ t, s.threads[i]? = some t ∧ t.pc.stage = .ended none) ∧
      ∀ i t, s.threads[i]? = some t →
        (outputs step unspun (start address v fns) as).countP (fun a => a.call = i) ≤
          t.maxSteps (order.erase i).length := by
  have hpaced : s.Sound ∧ s.Paced ([] ++ outputs step unspun (start address v fns) as) :=
    (along_all (P := fun _ _ => True) (fun _ _ => trivial) _ as).history
      (J := fun s as => s.Sound ∧ s.Paced as)
      (fun s a s' as ⟨hsound, h⟩ _ hs => ⟨hsound.step hs, h.step hsound hs⟩) hr
      ⟨sound_start address v fns, paced_start address v fns⟩
  obtain ⟨hsound, h⟩ := hpaced
  rw [List.nil_append] at h
  -- The steps without the tries in vain are a run, in which the evaluations are bounded.
  obtain ⟨is, c, hrun, hrep, hspent⟩ := run_spent (run_unspun hr)
  obtain ⟨order, hordered⟩ := AtomicCell.run_applied hrun
  refine ⟨fun i t hi => hsound.progress hi, order, hordered.nodup,
    fun i => by rw [hordered.published, hrep.published_iff], fun i t hi => ?_⟩
  exact (h.call hi).le (hspent.evaluations_le hrep hordered hi)

/-- The second call first tries in vain to take the lock, and then has to try its update again. -/
def spinsAndRetries : List Action := .step 0 :: .step 1 :: retryReuses.drop 1

theorem run_progress_spinsAndRetries :
    spinsAndRetries.countP (fun a => a.call = 1) = 26 ∧
      (outputs step unspun (start 7 5 retried) spinsAndRetries).countP (fun a => a.call = 1) = 25 ∧
      ∃ s, run step (start 7 5 retried) spinsAndRetries = some s ∧
        (∀ i t, s.threads[i]? = some t → (∃ seen, t.pc = .done seen) ∨ s.CanGoOn i ∨
          t.pc.tries = true ∧ ∃ j u, s.threads[j]? = some u ∧ u.pc.holdsLock = true ∧ s.CanGoOn j) ∧
        ∃ order : List Nat, order.Nodup ∧
          (∀ i, i ∈ order ↔ ∃ t, s.threads[i]? = some t ∧ t.pc.stage = .ended none) ∧
          ∀ i t, s.threads[i]? = some t →
            (outputs step unspun (start 7 5 retried) spinsAndRetries).countP (fun a => a.call = i) ≤
              t.maxSteps (order.erase i).length := by
  obtain ⟨s, hr⟩ :=
    Option.isSome_iff_exists.1 (show (run step (start 7 5 retried) spinsAndRetries).isSome = true by decide)
  exact ⟨by decide, by decide, s, hr, run_progress hr⟩

end RefcountAtomImpl

end ConfigServer
