/-
How often `update` of an `immer::atom` runs its function, which its documentation
says may be several times. A call tries again only when another has published
since it loaded, so it runs the function once more at most than there are other
updates that have been published. The counting is done on the atomic cell.
-/
import ConfigServer.AtomRefines

namespace ConfigServer

open Runs

variable {α : Type}

/-- The function of call `i` is run. -/
def RefcountAtomImpl.Action.evaluates (i : Nat) : RefcountAtomImpl.Action → Bool
  | .step _ => false
  | .make j _ => j = i

def RefcountAtomImpl.evaluations (i : Nat) (as : List RefcountAtomImpl.Action) : Nat :=
  as.countP (Action.evaluates i)

namespace AtomStage

/-- The function has been run on the box that is loaded. -/
def evaluated : AtomStage α → Nat
  | .made _ _ => 1
  | _ => 0

variable {heap : RefHeap.Heap α} {impl : Nat} {cell : Box α} {fn : Option (α → α)} {stage : AtomStage α}
  {pc : AtomicCell.Pc α} {oldv : Box α}

theorem evaluated_le (stage : AtomStage α) : stage.evaluated ≤ 1 := by
  cases stage <;> simp [evaluated]

theorem Shows.le (h : stage.Shows heap impl cell fn (.loaded oldv)) : oldv.impl ≤ cell.impl := by
  cases stage with
  | before => cases h
  | loaded p =>
    obtain ⟨oldv', hpc, hloaded⟩ := h
    cases hpc
    exact hloaded.le
  | made p q =>
    obtain ⟨oldv', f, hpc, -, hloaded, -⟩ := h
    cases hpc
    exact hloaded.le
  | ended seen => cases h

theorem Shows.evaluated_le (h : stage.Shows heap impl cell fn pc) : stage.evaluated ≤ pc.pending fn := by
  cases stage with
  | made p q =>
    obtain ⟨oldv, f, rfl, rfl, -⟩ := h
    exact Nat.le_refl _
  | _ => exact Nat.zero_le _

theorem Shows.since_le (h : stage.Shows heap impl cell fn pc) : pc.since cell ≤ cell.impl := by
  cases pc with
  | loaded oldv => exact h.le
  | _ => exact Nat.le_refl _

end AtomStage

namespace RefcountAtomImpl

variable {s s' s₁ : RefcountAtomImpl α} {c c' : AtomicCell α} {pc pc' : AtomPc α} {fn : Option (α → α)} {i : Nat}
  {t : AtomThread α} {as : List Action} {a : Action}

/-- Each call has run its function once at most for each number of updates that it has found published. -/
structure Spent (s : RefcountAtomImpl α) (c : AtomicCell α) (as : List Action) : Prop where
  bound {i : Nat} {t : AtomThread α} {k : AtomicCell.Call α} : s.threads[i]? = some t → c.calls[i]? = some k →
    evaluations i as ≤ k.pc.since c.cell + t.pc.stage.evaluated

theorem evaluations_append (i : Nat) (as : List Action) (a : Action) :
    evaluations i (as ++ [a]) = evaluations i as + if a.evaluates i then 1 else 0 := by
  rw [evaluations, List.countP_append, List.countP_singleton, evaluations]

theorem stepPc_quiet (hs : s.stepPc fn pc = some (s₁, pc'))
    (hheld : ∀ p ∈ pc.refs, ∃ v, s.heap.value? p = some v)
    (hquiet : pc.takesEffect s.impl fn = false) : pc'.stage = pc.stage := by
  rcases stepPc_stage hs hheld with ⟨-, hstage, -⟩ | ⟨rfl, -, -⟩ | ⟨p, v, rfl, rfl, -, -, -⟩ |
    ⟨p, q, rfl, hne, -, -⟩ |
    ⟨p, q, rfl, -, -⟩
  · exact hstage
  · cases hquiet
  · cases hquiet
  · exact absurd (of_decide_eq_false hquiet) (not_not.2 hne)
  · cases hquiet

/-- A call takes its step on the cell. -/
theorem Spent.effect (h : s.Spent c as) (hrep : s.Represents c) (hi : s.threads[i]? = some t)
    (hcell : c.step i = some c') (hthreads : s₁.threads = s.threads) :
    (resume i t (s₁, pc')).Spent c' as := by
  obtain ⟨k, hk, hcell⟩ := Option.bind_eq_some_iff.1 hcell
  obtain ⟨⟨cell', pc''⟩, hstep, rfl⟩ := Option.map_eq_some_iff.1 hcell
  obtain ⟨k', hk', hfn, hshows⟩ := hrep.call hi
  rw [hk, Option.some.injEq] at hk'
  subst hk'
  obtain ⟨himpl, hsince⟩ := AtomicCell.stepPc_since (fun oldv hpc => (hpc ▸ hshows).le) hstep
  refine ⟨fun {j u l} hj hl => ?_⟩
  dsimp only at hl ⊢
  obtain ⟨rfl, -⟩ | ⟨hij, hj⟩ := resume_threads hi hthreads hj
  · rw [List.getElem?_set_self (List.getElem?_eq_some_iff.1 hk).1, Option.some.injEq] at hl
    have hbefore := h.bound hi hk
    have hmade := hshows.evaluated_le
    rw [← hfn] at hmade
    rw [← hl]
    dsimp only
    omega
  · rw [List.getElem?_set_ne hij] at hl
    have hbefore := h.bound hj hl
    have hmono := l.pc.since_mono himpl
    omega

/-- A call takes a step that is none on the cell, and may run its function. -/
theorem Spent.stay (h : s.Spent c as) (hi : s.threads[i]? = some t) (hthreads : s₁.threads = s.threads)
    (hmine : (if a.evaluates i then 1 else 0) + t.pc.stage.evaluated ≤ pc'.stage.evaluated)
    (hothers : ∀ j, i ≠ j → a.evaluates j = false) : (resume i t (s₁, pc')).Spent c (as ++ [a]) := by
  refine ⟨fun {j u l} hj hl => ?_⟩
  rw [evaluations_append]
  obtain ⟨rfl, rfl⟩ | ⟨hij, hj⟩ := resume_threads hi hthreads hj
  · have hbefore := h.bound hi hl
    dsimp only
    omega
  · rw [hothers j hij, if_neg Bool.false_ne_true]
    exact h.bound hj hl

theorem Spent.step (h : s.Spent c as) (hsound : s.Sound) (hrep : s.Represents c) (hs : s.step a = some s')
    (hcell : run AtomicCell.step c (s.effects a) = some c') : s'.Spent c' (as ++ [a]) := by
  obtain ⟨i, t, s₁, pc', hi, rfl, ⟨rfl, hstep⟩ | ⟨address, rfl, hmake⟩⟩ := step_cases hs
  · have hthreads := (hsound.stepPc_moves hi hstep).threads
    rw [effects, hi, Option.any_some] at hcell
    cases heffect : t.pc.takesEffect s.impl t.fn with
    | true =>
      rw [heffect, if_pos rfl] at hcell
      obtain ⟨c₁, hcell, hrest⟩ := run_cons.1 hcell
      cases hrest
      refine ⟨fun {j u l} hj hl => ?_⟩
      rw [evaluations_append]
      exact (h.effect hrep hi hcell hthreads).bound hj hl
    | false =>
      rw [heffect, if_neg Bool.false_ne_true] at hcell
      cases hcell
      refine h.stay hi hthreads ?_ ?_
      · rw [stepPc_quiet hstep (hsound.held hi) heffect]
        exact Nat.le_of_eq (Nat.zero_add _)
      · exact fun _ _ => rfl
  · cases hcell
    obtain ⟨f, p, v, -, hpc, -, rfl, heap, rfl, -⟩ := make_spec (hsound.counted hi) hmake
    refine h.stay hi rfl ?_ ?_
    · rw [hpc, Action.evaluates, if_pos (decide_eq_true rfl)]
      exact Nat.le_refl _
    · exact fun j hij => decide_eq_false hij

theorem run_spent {address : Nat} {v : α} {fns : List (Option (α → α))}
    (hr : run step (start address v fns) as = some s) :
    ∃ is c, run AtomicCell.step (.start v fns) is = some c ∧ s.Represents c ∧ s.Spent c as := by
  have hstart : (start address v fns).Sound ∧ ∃ is c, run AtomicCell.step (.start v fns) is = some c ∧
      (start address v fns).Represents c ∧ (start address v fns).Spent c [] :=
    ⟨sound_start address v fns, [], _, rfl, represents_start address v fns, ⟨fun _ _ => Nat.zero_le _⟩⟩
  have hspent := trace
    (J := fun s as => s.Sound ∧ ∃ is c, run AtomicCell.step
    (.start v fns) is = some c ∧ s.Represents c ∧ s.Spent c as)
    (fun s a s' as ⟨hsound, is, c, hrun, hrep, h⟩ hs => by
      obtain ⟨c', hnext, hrep'⟩ := hrep.step hsound hs
      exact ⟨hsound.step hs, is ++ s.effects a, c', run_append.2 ⟨c, hrun, hnext⟩, hrep',
        h.step hsound hrep hs hnext⟩)
    hr hstart
  exact hspent.2

/-- The numbers of updates that a call can have found published are those of the others, and its own. -/
theorem Spent.evaluations_le (h : s.Spent c as) (hrep : s.Represents c) {v : α} {fns : List (Option (α → α))}
    {order : List Nat} (hordered : c.Ordered fns v order) (hi : s.threads[i]? = some t) :
    evaluations i as ≤ (order.erase i).length + 1 := by
  have hcell : c.cell.impl = order.length := congrArg Box.impl hordered.cell
  obtain ⟨k, hk, -, hshows⟩ := hrep.call hi
  have hbound := h.bound hi hk
  have hsince := hshows.since_le
  by_cases hmem : i ∈ order
  · obtain ⟨t', hi', hstage⟩ := hrep.published_iff.1 ((hordered.published i).1 hmem)
    rw [hi, Option.some.injEq] at hi'
    have hzero : (AtomStage.ended none : AtomStage α).evaluated = 0 := rfl
    rw [hi', hstage, hzero] at hbound
    rw [List.length_erase_of_mem hmem, Nat.sub_add_cancel (List.length_pos_of_mem hmem)]
    omega
  · have hone := t.pc.stage.evaluated_le
    rw [List.erase_of_not_mem hmem]
    omega

/-- The function of a call is run once more at most than there are other updates that have been published: a call
tries again only after another has got through. -/
theorem run_evaluations {address : Nat} {v : α} {fns : List (Option (α → α))}
    (hr : run step (start address v fns) as = some s) :
    ∃ order : List Nat, order.Nodup ∧ (∀ i, i ∈ order ↔ ∃ t, s.threads[i]? = some t ∧ t.pc.stage = .ended none) ∧
      ∀ i t, s.threads[i]? = some t → evaluations i as ≤ (order.erase i).length + 1 := by
  obtain ⟨is, c, hrun, hrep, h⟩ := run_spent hr
  obtain ⟨order, hordered⟩ := AtomicCell.run_applied hrun
  refine ⟨order, hordered.nodup, fun i => by rw [hordered.published, hrep.published_iff], fun i t hi => ?_⟩
  exact h.evaluations_le hrep hordered hi

/-- The second update has run its function twice, since the first has been published. -/
theorem run_evaluations_retryReuses :
    evaluations 1 retryReuses = 2 ∧ ∃ s, run step (start 7 5 retried) retryReuses = some s ∧
      ∃ order : List Nat, order.Nodup ∧
        (∀ i, i ∈ order ↔ ∃ t, s.threads[i]? = some t ∧ t.pc.stage = .ended none) ∧
        ∀ i t, s.threads[i]? = some t → evaluations i retryReuses ≤ (order.erase i).length + 1 := by
  obtain ⟨s, hr⟩ :=
    Option.isSome_iff_exists.1 (show (run step (start 7 5 retried) retryReuses).isSome = true by decide)
  exact ⟨by decide, s, hr, run_evaluations hr⟩

end RefcountAtomImpl

end ConfigServer
