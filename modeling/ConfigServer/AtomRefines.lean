/-
An `immer::atom` is an atomic cell: each call loads its box in one step, when it
reads the pointer under the lock, and publishes in one step, when it swaps its
box into the cell. The pointers compare equal just when nobody has published in
between: while a call has a box its holder is not freed, so no other box gets
its address. So the cell that the store is modelled with, whose boxes are
numbered, is the one it uses.
-/
import ConfigServer.Lib.AtomicCell
import ConfigServer.RefcountAtomFacts

namespace ConfigServer

open RefHeap Runs

variable {α : Type}

/-- How far a call has got, as the callers of an atomic cell see it. -/
inductive AtomStage (α : Type)
  | before
  /-- It has loaded the box with holder `p`. -/
  | loaded (p : Nat)
  /-- It has also made one with holder `q`. -/
  | made (p q : Nat)
  | ended (seen : Option α)

def AtomPc.stage : AtomPc α → AtomStage α
  | .entered => .before
  | .locked => .before
  | .copying p => .loaded p
  | .copied p => .loaded p
  | .loaded p => .loaded p
  | .seen _ v => .ended (some v)
  | .made p q => .made p q
  | .relocked p q => .made p q
  | .same p q => .made p q
  | .assigning p q => .made p q
  | .differs _ _ => .before
  | .failed _ _ => .before
  | .failedNew _ => .before
  | .done v? => .ended v?
  | _ => .ended none

/-- The next step of a call at this place is its step on the cell: it loads, keeps what it has loaded, finds
another box in the cell, or publishes. -/
def AtomPc.takesEffect (impl : Nat) (fn : Option (α → α)) : AtomPc α → Bool
  | .locked => true
  | .loaded _ => fn.isNone
  | .relocked p _ => p ≠ impl
  | .assigning _ _ => true
  | _ => false

/-- The steps on the cell in a step on the atom. -/
def RefcountAtomImpl.effects (s : RefcountAtomImpl α) : RefcountAtomImpl.Action → List Nat
  | .step i => if s.threads[i]?.any fun t => t.pc.takesEffect s.impl t.fn then [i] else []
  | .make _ _ => []

namespace AtomStage

/-- The holders it depends on. -/
def holders : AtomStage α → List Nat
  | .loaded p => [p]
  | .made p q => [p, q]
  | _ => []

/-- The holder `p` is that of the box `oldv`: it has its value, and it is in the cell just when `oldv` is. -/
structure Loaded (heap : Heap α) (impl : Nat) (cell : Box α) (p : Nat) (oldv : Box α) : Prop where
  value : heap.value? p = some oldv.value
  le : oldv.impl ≤ cell.impl
  same : p = impl ↔ oldv.impl = cell.impl

/-- A call at this stage is a call on the cell that is at `pc`. -/
def Shows (heap : Heap α) (impl : Nat) (cell : Box α) (fn : Option (α → α)) :
    AtomStage α → AtomicCell.Pc α → Prop
  | .before, pc => pc = .entered
  | .loaded p, pc => ∃ oldv, pc = .loaded oldv ∧ Loaded heap impl cell p oldv
  | .made p q, pc =>
    ∃ oldv f, pc = .loaded oldv ∧ fn = some f ∧ Loaded heap impl cell p oldv ∧
      heap.value? q = some (f oldv.value)
  | .ended seen, pc => pc = .done seen

variable {heap heap' : Heap α} {impl : Nat} {cell : Box α} {fn : Option (α → α)} {stage : AtomStage α}
  {pc : AtomicCell.Pc α} {p q : Nat} {oldv : Box α} {v : α}

theorem Loaded.frame (h : Loaded heap impl cell p oldv) (hp : heap'.value? p = heap.value? p) :
    Loaded heap' impl cell p oldv := ⟨hp.trans h.value, h.le, h.same⟩

/-- Somebody else publishes, with a holder of its own. -/
theorem Loaded.publish (h : Loaded heap impl cell p oldv) (hp : p ≠ q) :
    Loaded heap q ⟨cell.impl + 1, v⟩ p oldv where
  value := h.value
  le := Nat.le_succ_of_le h.le
  same := iff_of_false hp (Nat.ne_of_lt (Nat.lt_succ_of_le h.le))

/-- Nothing that the call depends on changes. -/
theorem Shows.frame (h : stage.Shows heap impl cell fn pc)
    (hvalue : ∀ b ∈ stage.holders, heap'.value? b = heap.value? b) : stage.Shows heap' impl cell fn pc := by
  cases stage with
  | before => exact h
  | loaded p =>
    obtain ⟨oldv, hpc, hloaded⟩ := h
    exact ⟨oldv, hpc, hloaded.frame (hvalue p (List.mem_singleton_self p))⟩
  | made p q =>
    obtain ⟨oldv, f, hpc, hfn, hloaded, hq⟩ := h
    refine ⟨oldv, f, hpc, hfn, hloaded.frame (hvalue p List.mem_cons_self), ?_⟩
    rw [hvalue q (List.mem_cons_of_mem _ (List.mem_singleton_self q)), hq]
  | ended seen => exact h

theorem Shows.of_done {seen : Option α} (h : stage.Shows heap impl cell fn (.done seen)) :
    stage = .ended seen := by
  cases stage with
  | before => cases h
  | loaded p =>
    obtain ⟨oldv, hpc, -⟩ := h
    cases hpc
  | made p q =>
    obtain ⟨oldv, f, hpc, -⟩ := h
    cases hpc
  | ended seen' =>
    cases h
    rfl

theorem Shows.publish (h : stage.Shows heap impl cell fn pc) (hq : q ∉ stage.holders) :
    stage.Shows heap q ⟨cell.impl + 1, v⟩ fn pc := by
  cases stage with
  | before => exact h
  | loaded p =>
    obtain ⟨oldv, hpc, hloaded⟩ := h
    exact ⟨oldv, hpc, hloaded.publish fun heq => hq (List.mem_singleton.2 heq.symm)⟩
  | made p r =>
    obtain ⟨oldv, f, hpc, hfn, hloaded, hr⟩ := h
    exact ⟨oldv, f, hpc, hfn, hloaded.publish fun heq => hq (heq ▸ List.mem_cons_self), hr⟩
  | ended seen => exact h

end AtomStage

/-- The holders a call depends on are those of its boxes, and that of the cell while it is to be copied. -/
theorem AtomPc.Ok.holders {pc : AtomPc α} {impl b : Nat} (hok : pc.Ok impl) (hb : b ∈ pc.stage.holders) :
    b = impl ∨ b ∈ pc.refs := by
  cases pc with
  | copying p => exact .inl (hok.knows b hb)
  | _ =>
    simp only [stage, AtomStage.holders, refs, List.mem_cons, List.not_mem_nil, or_false] at hb ⊢ <;> tauto

namespace RefcountAtomImpl

variable {s s' s₁ : RefcountAtomImpl α} {c : AtomicCell α} {pc pc' : AtomPc α} {fn : Option (α → α)} {i : Nat}
  {t : AtomThread α}

/-- The cell has the value of the box that is in it, and each call is as far. -/
structure Represents (s : RefcountAtomImpl α) (c : AtomicCell α) : Prop where
  value : s.heap.value? s.impl = some c.cell.value
  length : c.calls.length = s.threads.length
  call {i : Nat} {t : AtomThread α} : s.threads[i]? = some t → ∃ k, c.calls[i]? = some k ∧ k.fn = t.fn ∧
    t.pc.stage.Shows s.heap s.impl c.cell t.fn k.pc

theorem represents_start (address : Nat) (v : α) (fns : List (Option (α → α))) :
    (start address v fns).Represents (.start v fns) where
  value := by
    show (Heap.set (fun _ => none) address (some (v, 1)) address).map Prod.fst = some v
    rw [Heap.set_self, Option.map_some]
  length := by rw [start, AtomicCell.start, List.length_map, List.length_map]
  call {i t} hi := by
    simp only [start, List.getElem?_map, Option.map_eq_some_iff] at hi
    obtain ⟨fn, hfn, rfl⟩ := hi
    refine ⟨{ fn }, ?_, rfl, rfl⟩
    simp only [AtomicCell.start, List.getElem?_map, hfn, Option.map_some]

/-- A call goes on, and on the cell it does so too or stays where it is. -/
theorem Represents.update (h : s.Represents c) {k : AtomicCell.Call α} {calls : List (AtomicCell.Call α)}
    {cell : Box α} (hi : s.threads[i]? = some t) (hk : c.calls[i]? = some k) {pc'' : AtomicCell.Pc α}
    (hcalls : calls = c.calls.set i { k with pc := pc'' }) (hfn : k.fn = t.fn)
    (hthreads : s₁.threads = s.threads) (hvalue : s₁.heap.value? s₁.impl = some cell.value)
    (hmine : pc'.stage.Shows s₁.heap s₁.impl cell t.fn pc'')
    (hrest : ∀ {j u pc}, i ≠ j → s.threads[j]? = some u → u.pc.stage.Shows s.heap s.impl c.cell u.fn pc →
      u.pc.stage.Shows s₁.heap s₁.impl cell u.fn pc) :
    (resume i t (s₁, pc')).Represents { cell, calls } := by
  refine ⟨hvalue, ?_, fun {j u} hj => ?_⟩
  · rw [resume, hthreads]
    dsimp only
    rw [hcalls, List.length_set, List.length_set, h.length]
  dsimp only
  obtain ⟨rfl, rfl⟩ | ⟨hij, hj⟩ := resume_threads hi hthreads hj
  · rw [hcalls, List.getElem?_set_self (List.getElem?_eq_some_iff.1 hk).1]
    exact ⟨_, rfl, hfn, hmine⟩
  · obtain ⟨k', hk', hfn', hshows⟩ := h.call hj
    rw [hcalls, List.getElem?_set_ne hij]
    exact ⟨k', hk', hfn', hrest hij hj hshows⟩

/-- A step of a call that is none on the cell, or one that loads, keeps, fails or publishes. -/
theorem stepPc_stage (hs : s.stepPc fn pc = some (s₁, pc'))
    (hheld : ∀ p ∈ pc.refs, ∃ v, s.heap.value? p = some v) :
    (pc.takesEffect s.impl fn = false ∧ pc'.stage = pc.stage ∧ s₁.impl = s.impl) ∨
      (pc = .locked ∧ s₁ = s ∧ pc' = .copying s.impl) ∨
      (∃ p v, pc = .loaded p ∧ fn = none ∧ s.heap.value? p = some v ∧ s₁ = s ∧ pc' = .seen p v) ∨
      (∃ p q, pc = .relocked p q ∧ p ≠ s.impl ∧ s₁ = s ∧ pc' = .differs p q) ∨
      ∃ p q, pc = .assigning p q ∧ s₁ = { s with impl := q } ∧ pc' = .swapped p q s.impl := by
  have hcopy (p : Nat) : (s.copyBox p).impl = s.impl := by
    unfold copyBox
    split <;> rfl
  have hdestroy (p : Nat) : (s.destroyBox p).impl = s.impl := by
    unfold destroyBox
    split <;> rfl
  have hlock {spinning got : AtomPc α} (hs : s.tryLock spinning got = (s₁, pc'))
      (hstage : got.stage = spinning.stage) : pc'.stage = spinning.stage ∧ s₁.impl = s.impl := by
    unfold tryLock at hs
    split at hs
    · cases hs
      exact ⟨rfl, rfl⟩
    · cases hs
      exact ⟨hstage, rfl⟩
  cases pc with
  | entered =>
    have hs : s.tryLock .entered .locked = (s₁, pc') := Option.some.inj hs
    exact .inl ⟨rfl, hlock hs rfl⟩
  | made p q =>
    have hs : s.tryLock (.made p q) (.relocked p q) = (s₁, pc') := Option.some.inj hs
    exact .inl ⟨rfl, hlock hs rfl⟩
  | locked =>
    cases hs
    exact .inr (.inl ⟨rfl, rfl, rfl⟩)
  | loaded p =>
    cases fn with
    | some fn => cases hs
    | none =>
      obtain ⟨v, hvalue⟩ := hheld p (List.mem_singleton_self p)
      simp only [stepPc, hvalue, Option.some.injEq, Prod.mk.injEq] at hs
      obtain ⟨rfl, rfl⟩ := hs
      exact .inr (.inr (.inl ⟨p, v, rfl, rfl, hvalue, rfl, rfl⟩))
  | relocked p q =>
    cases hs
    by_cases hp : p = s.impl
    · rw [if_pos hp]
      exact .inl ⟨decide_eq_false (not_not.2 hp), rfl, rfl⟩
    · rw [if_neg hp]
      exact .inr (.inr (.inr (.inl ⟨p, q, rfl, hp, rfl, rfl⟩)))
  | assigning p q =>
    cases hs
    exact .inr (.inr (.inr (.inr ⟨p, q, rfl, rfl, rfl⟩)))
  | copying p => cases hs; exact .inl ⟨rfl, rfl, hcopy p⟩
  | same p q => cases hs; exact .inl ⟨rfl, rfl, hcopy q⟩
  | assigned p q => cases hs; exact .inl ⟨rfl, rfl, hcopy q⟩
  | seen p v => cases hs; exact .inl ⟨rfl, rfl, hdestroy p⟩
  | swapped p q aux => cases hs; exact .inl ⟨rfl, rfl, hdestroy aux⟩
  | unlocked p q => cases hs; exact .inl ⟨rfl, rfl, hdestroy q⟩
  | newDestroyed p q => cases hs; exact .inl ⟨rfl, rfl, hdestroy p⟩
  | oldDestroyed q => cases hs; exact .inl ⟨rfl, rfl, hdestroy q⟩
  | failed p q => cases hs; exact .inl ⟨rfl, rfl, hdestroy q⟩
  | failedNew p => cases hs; exact .inl ⟨rfl, rfl, hdestroy p⟩
  | copied p => cases hs; exact .inl ⟨rfl, rfl, rfl⟩
  | returning p q => cases hs; exact .inl ⟨rfl, rfl, rfl⟩
  | differs p q => cases hs; exact .inl ⟨rfl, rfl, rfl⟩
  | done seen => cases hs

/-- The call on the cell takes its step. -/
theorem Represents.advance (h : s.Represents c) {k : AtomicCell.Call α} {cell : Box α} {pc'' : AtomicCell.Pc α}
    (hi : s.threads[i]? = some t) (hk : c.calls[i]? = some k) (hfn : k.fn = t.fn)
    (hcell : AtomicCell.stepPc c.cell t.fn k.pc = some (cell, pc'')) (hthreads : s₁.threads = s.threads)
    (hvalue : s₁.heap.value? s₁.impl = some cell.value) (hmine : pc'.stage.Shows s₁.heap s₁.impl cell t.fn pc'')
    (hrest : ∀ {j u pc}, i ≠ j → s.threads[j]? = some u → u.pc.stage.Shows s.heap s.impl c.cell u.fn pc →
      u.pc.stage.Shows s₁.heap s₁.impl cell u.fn pc) :
    ∃ c', run AtomicCell.step c [i] = some c' ∧ (resume i t (s₁, pc')).Represents c' := by
  rw [← hfn] at hcell
  exact ⟨_, run_singleton (AtomicCell.step_of_call hk hcell), h.update hi hk rfl hfn hthreads hvalue hmine hrest⟩

/-- The call on the cell stays where it is. -/
theorem Represents.stutter (h : s.Represents c) {k : AtomicCell.Call α} (hi : s.threads[i]? = some t)
    (hk : c.calls[i]? = some k) (hfn : k.fn = t.fn) (hthreads : s₁.threads = s.threads)
    (himpl : s₁.impl = s.impl)
    (hvalue : ∀ b ∈ s.impl :: (s.threads.eraseIdx i).flatMap (·.pc.refs), s₁.heap.value? b = s.heap.value? b)
    (hsound : s.Sound) (hmine : pc'.stage.Shows s₁.heap s₁.impl c.cell t.fn k.pc) :
    (resume i t (s₁, pc')).Represents c := by
  have hcalls : c.calls = c.calls.set i { k with pc := k.pc } := by
    obtain ⟨hlt, rfl⟩ := List.getElem?_eq_some_iff.1 hk
    exact (List.set_getElem_self hlt).symm
  refine h.update hi hk hcalls hfn hthreads ?_ hmine fun {j u pc} hij hj hshows => ?_
  · rw [himpl, hvalue _ List.mem_cons_self, h.value]
  · rw [himpl]
    refine hshows.frame fun b hb => hvalue b ?_
    rcases (hsound.each (List.mem_of_getElem? hj)).holders hb with rfl | hb
    · exact List.mem_cons_self
    · exact List.mem_cons_of_mem _ (mem_others hij hj hb)

theorem Represents.stepPc (h : s.Represents c) (hsound : s.Sound) (hi : s.threads[i]? = some t)
    (hs : s.stepPc t.fn t.pc = some (s₁, pc')) :
    ∃ c', run AtomicCell.step c (s.effects (.step i)) = some c' ∧ (resume i t (s₁, pc')).Represents c' := by
  obtain ⟨k, hk, hfn, hshows⟩ := h.call hi
  have hmoves := hsound.stepPc_moves hi hs
  have hok := hsound.each (List.mem_of_getElem? hi)
  rw [effects, hi, Option.any_some]
  rcases stepPc_stage hs (hsound.held hi) with ⟨heffect, hstage, himpl⟩ | ⟨hpc, rfl, rfl⟩ |
    ⟨p, v, hpc, hnone, hv, rfl, rfl⟩ | ⟨p, q, hpc, hne, rfl, rfl⟩ | ⟨p, q, hpc, rfl, rfl⟩
  · -- nothing the callers of the cell would see: the values of all boxes are kept
    rw [heffect, if_neg Bool.false_ne_true]
    refine ⟨c, rfl, h.stutter hi hk hfn hmoves.threads himpl (fun b hb => hmoves.value b ?_) hsound ?_⟩
    · rw [himpl]
      rcases List.mem_cons.1 hb with rfl | hb
      · exact List.mem_cons_self
      · exact List.mem_cons_of_mem _ (List.mem_append_right _ hb)
    · rw [himpl, hstage]
      refine hshows.frame fun b hb => hmoves.value b ?_
      rw [← hstage] at hb
      rcases hmoves.ok.holders hb with rfl | hb
      · exact List.mem_cons_self
      · exact List.mem_cons_of_mem _ (List.mem_append_left _ hb)
  · -- the pointer is read: the cell is loaded
    rw [hpc] at hshows ⊢
    have hcell : AtomicCell.stepPc c.cell t.fn k.pc = some (c.cell, .loaded c.cell) := by rw [hshows]; rfl
    exact h.advance hi hk hfn hcell rfl h.value ⟨c.cell, rfl, h.value, Nat.le_refl _, iff_of_true rfl rfl⟩
      fun _ _ hshows => hshows
  · rw [hpc] at hshows ⊢
    obtain ⟨oldv, hloaded, hholder⟩ := hshows
    rw [hholder.value, Option.some.injEq] at hv
    rw [hnone]
    have hcell : AtomicCell.stepPc c.cell t.fn k.pc = some (c.cell, .done (some v)) := by
      rw [hloaded, hnone, ← hv]
      rfl
    exact h.advance hi hk hfn hcell rfl h.value rfl fun _ _ hshows => hshows
  · -- the pointers differ: somebody has published
    rw [hpc] at hshows ⊢
    rw [AtomPc.takesEffect, if_pos (decide_eq_true hne)]
    obtain ⟨oldv, f, hloaded, hf, hholder, -⟩ := hshows
    have hfails : c.cell.publish oldv (f oldv.value) = none :=
      Box.publish_eq_none.2 fun heq => hne (hholder.same.2 heq)
    have hcell : AtomicCell.stepPc c.cell t.fn k.pc = some (c.cell, .entered) := by
      rw [hloaded, hf]
      simp only [AtomicCell.stepPc, hfails]
    exact h.advance hi hk hfn hcell rfl h.value rfl fun _ _ hshows => hshows
  · -- the box is swapped in under the lock: the cell still has the one that was loaded
    rw [hpc] at hshows hok ⊢
    obtain ⟨oldv, f, hloaded, hf, hholder, hq⟩ := hshows
    have hp : p = s.impl := hok.knows p (List.mem_singleton_self p)
    have hpublishes : c.cell.publish oldv (f oldv.value) = some ⟨c.cell.impl + 1, f oldv.value⟩ :=
      Box.publish_eq_some.2 ⟨hholder.same.1 hp, rfl⟩
    have hcell : AtomicCell.stepPc c.cell t.fn k.pc = some (⟨c.cell.impl + 1, f oldv.value⟩, .done none) := by
      rw [hloaded, hf]
      simp only [AtomicCell.stepPc, hpublishes]
    refine h.advance hi hk hfn hcell rfl hq rfl fun {j u pc} hij hj hshows => hshows.publish fun hmem => ?_
    have hfresh : q ∈ t.pc.fresh := by rw [hpc]; exact List.mem_singleton_self q
    rcases (hsound.each (List.mem_of_getElem? hj)).holders hmem with heq | hmem
    · exact hok.fresh q (List.mem_singleton_self q) heq
    · exact (hsound.apart hij hi hj).left q hfresh hmem

theorem Represents.make (h : s.Represents c) (hsound : s.Sound) {address : Nat} (hi : s.threads[i]? = some t)
    (hs : s.make t address = some (s₁, pc')) : (resume i t (s₁, pc')).Represents c := by
  obtain ⟨k, hk, hfn, hshows⟩ := h.call hi
  obtain ⟨f, p, v, hf, hpc, hv, rfl, heap, rfl, -, -, hnew, hvalue⟩ := make_spec (hsound.counted hi) hs
  rw [hpc] at hshows hvalue
  obtain ⟨oldv, hloaded, hholder⟩ := hshows
  refine h.stutter hi hk hfn rfl rfl (fun b hb => hvalue b ?_) hsound
    ⟨oldv, f, hloaded, hf, hholder.frame ?_, ?_⟩
  · rcases List.mem_cons.1 hb with rfl | hb
    · exact List.mem_cons_self
    · exact List.mem_cons_of_mem _ (List.mem_append_right _ hb)
  · exact hvalue p (List.mem_cons_of_mem _ List.mem_cons_self)
  · rw [hholder.value, Option.some.injEq] at hv
    rw [hnew, hv]

theorem Represents.step (h : s.Represents c) (hsound : s.Sound) {a : Action} (hs : s.step a = some s') :
    ∃ c', run AtomicCell.step c (s.effects a) = some c' ∧ s'.Represents c' := by
  obtain ⟨i, t, s₁, pc', hi, rfl, ⟨rfl, hstep⟩ | ⟨address, rfl, hmake⟩⟩ := step_cases hs
  · exact h.stepPc hsound hi hstep
  · exact ⟨c, rfl, h.make hsound hi hmake⟩

theorem Represents.published_iff (h : s.Represents c) :
    AtomicCell.Published c.calls i ↔ ∃ t, s.threads[i]? = some t ∧ t.pc.stage = .ended none := by
  constructor
  · rintro ⟨k, hk, hdone⟩
    have hlt : i < s.threads.length := h.length ▸ (List.getElem?_eq_some_iff.1 hk).1
    obtain ⟨k', hk', -, hshows⟩ := h.call (List.getElem?_eq_getElem hlt)
    rw [hk, Option.some.injEq] at hk'
    rw [← hk', hdone] at hshows
    exact ⟨_, List.getElem?_eq_getElem hlt, hshows.of_done⟩
  · rintro ⟨t, hi, hstage⟩
    obtain ⟨k, hk, -, hshows⟩ := h.call hi
    rw [hstage] at hshows
    exact ⟨k, hk, hshows⟩

theorem run_represents {address : Nat} {v : α} {fns : List (Option (α → α))} {as : List Action}
    (hr : run step (start address v fns) as = some s) :
    s.Sound ∧ ∃ c, run AtomicCell.step (.start v fns) (outputs step effects (start address v fns) as) = some c ∧
      s.Represents c := by
  have hstart : (start address v fns).Sound ∧ ∃ c, run AtomicCell.step (.start v fns) [] = some c ∧
      (start address v fns).Represents c :=
    ⟨sound_start address v fns, _, rfl, represents_start address v fns⟩
  refine (along_all (fun _ _ => trivial) (start address v fns) as).history
    (J := fun s is => s.Sound ∧ ∃ c, run AtomicCell.step (.start v fns) is = some c ∧ s.Represents c)
    (P := fun _ _ => True) (fun s a s' is ⟨hsound, c, hrun, h⟩ _ hs => ?_) hr hstart
  obtain ⟨c', hnext, h'⟩ := h.step hsound hs
  exact ⟨hsound.step hs, c', run_append.2 ⟨c, hrun, hnext⟩, h'⟩

/-- Every run of an atom is one of an atomic cell: each call loads, keeps what it has loaded, fails or publishes
in one of its own steps on the atom, and these are the steps of the run on the cell, in their order. -/
theorem run_refines {address : Nat} {v : α} {fns : List (Option (α → α))} {as : List Action}
    (hr : run step (start address v fns) as = some s) :
    ∃ c, run AtomicCell.step (.start v fns) (outputs step effects (start address v fns) as) = some c ∧
      s.Represents c :=
  (run_represents hr).2

theorem run_refines_retryReuses :
    ∃ s c, run step (start 7 5 retried) retryReuses = some s ∧
      run AtomicCell.step (.start 5 retried) [0, 1, 0, 2, 1, 1, 1, 2] = some c ∧ s.Represents c := by
  obtain ⟨s, hr⟩ :=
    Option.isSome_iff_exists.1 (show (run step (start 7 5 retried) retryReuses).isSome = true by decide)
  obtain ⟨c, hrun, h⟩ := run_refines hr
  exact ⟨s, c, hr, hrun, h⟩

/-- The updates that have got as far as to swap in their box have been applied in some order, once each: the value
in the cell is what they have made of the first one. A load has seen what the first few of them made. -/
theorem run_updatesOnce {address : Nat} {v : α} {fns : List (Option (α → α))} {as : List Action}
    (hr : run step (start address v fns) as = some s) :
    ∃ order : List Nat, order.Nodup ∧ (∀ i ∈ order, ∃ f, fns[i]? = some (some f)) ∧
      (∀ i, i ∈ order ↔ ∃ t, s.threads[i]? = some t ∧ t.pc.stage = .ended none) ∧
      s.heap.value? s.impl = some (AtomicCell.applied fns v order) ∧
      ∀ t ∈ s.threads, ∀ u, t.pc.stage = .ended (some u) →
        ∃ before, before <+: order ∧ u = AtomicCell.applied fns v before := by
  obtain ⟨-, c, hrun, h⟩ := run_represents hr
  obtain ⟨order, hordered⟩ := AtomicCell.run_applied hrun
  refine ⟨order, hordered.nodup, fun i => hordered.updates, fun i => ?_, ?_, fun t ht u hstage => ?_⟩
  · rw [hordered.published, h.published_iff]
  · rw [h.value, hordered.cell]
  · obtain ⟨i, hi⟩ := List.mem_iff_getElem?.1 ht
    obtain ⟨k, hk, -, hshows⟩ := h.call hi
    rw [hstage] at hshows
    have hexplained := hordered.explained k (List.mem_of_getElem? hk)
    rw [show k.pc = .done (some u) from hshows] at hexplained
    exact hexplained

theorem run_updatesOnce_retryReuses :
    ∃ s, run step (start 7 5 retried) retryReuses = some s ∧ ∃ order : List Nat, order.Nodup ∧
      (∀ i, i ∈ order ↔ ∃ t, s.threads[i]? = some t ∧ t.pc.stage = .ended none) ∧
      s.heap.value? s.impl = some (AtomicCell.applied retried 5 order) := by
  obtain ⟨s, hr⟩ :=
    Option.isSome_iff_exists.1 (show (run step (start 7 5 retried) retryReuses).isSome = true by decide)
  obtain ⟨order, hnodup, -, hmem, hvalue, -⟩ := run_updatesOnce hr
  exact ⟨s, hr, order, hnodup, hmem, hvalue⟩

end RefcountAtomImpl

end ConfigServer
