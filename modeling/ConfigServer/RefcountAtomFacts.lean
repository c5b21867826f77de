/-
What holds in every state of an `immer::atom`. The counts are the numbers of
boxes, so no holder is used after it was freed; the lock is held by one call at
most; and the holder a call has made is nobody else's until it is in the cell.
-/
import ConfigServer.Lib.Threads
import ConfigServer.RefcountAtom

namespace ConfigServer

open RefHeap Runs

namespace AtomPc

variable {α : Type}

/-- The holders that the boxes of the call point to, the one it destroys next in front. -/
def refs : AtomPc α → List Nat
  | .copied p => [p]
  | .loaded p => [p]
  | .seen p _ => [p]
  | .made p q => [q, p]
  | .relocked p q => [q, p]
  | .same p q => [q, p]
  | .assigning p q => [q, q, p]
  | .swapped p q aux => [aux, p, q]
  | .assigned p q => [p, q]
  | .returning p q => [q, p, q]
  | .unlocked p q => [q, p, q]
  | .newDestroyed p q => [p, q]
  | .oldDestroyed q => [q]
  | .differs p q => [q, p]
  | .failed p q => [q, p]
  | .failedNew p => [p]
  | _ => []

/-- The call is between `lock` and `unlock`. -/
def holdsLock : AtomPc α → Bool
  | .locked => true
  | .copying _ => true
  | .copied _ => true
  | .relocked _ _ => true
  | .same _ _ => true
  | .assigning _ _ => true
  | .swapped _ _ _ => true
  | .assigned _ _ => true
  | .returning _ _ => true
  | .differs _ _ => true
  | _ => false

/-- A holder the call has made that is not in the cell. -/
def fresh : AtomPc α → List Nat
  | .made _ q => [q]
  | .relocked _ q => [q]
  | .same _ q => [q]
  | .assigning _ q => [q]
  | .differs _ q => [q]
  | .failed _ q => [q]
  | _ => []

/-- What the call knows of the pointer in the cell: it has read it, or compared with it, under the lock. -/
def knows : AtomPc α → List Nat
  | .copying p => [p]
  | .same p _ => [p]
  | .assigning p _ => [p]
  | _ => []

/-- What holds of a call while the cell points to `impl`. -/
structure Ok (pc : AtomPc α) (impl : Nat) : Prop where
  knows : ∀ p ∈ pc.knows, p = impl
  fresh : ∀ q ∈ pc.fresh, q ≠ impl

/-- No call has a box of what another one has made. -/
structure Apart (pc pc' : AtomPc α) : Prop where
  left : ∀ q ∈ pc.fresh, q ∉ pc'.refs
  right : ∀ q ∈ pc'.fresh, q ∉ pc.refs

theorem Apart.symm {pc pc' : AtomPc α} (h : pc.Apart pc') : pc'.Apart pc := ⟨h.right, h.left⟩

theorem fresh_subset (pc : AtomPc α) : pc.fresh ⊆ pc.refs := by
  cases pc <;> simp [fresh, refs]

theorem refs_length_le (pc : AtomPc α) : pc.refs.length ≤ 3 := by
  cases pc <;> simp [refs]

theorem knows_eq_nil {pc : AtomPc α} (h : pc.holdsLock = false) : pc.knows = [] := by
  cases pc <;> first | rfl | cases h

end AtomPc

namespace RefcountAtomImpl

variable {α : Type} {s s' : RefcountAtomImpl α} {pc pc' : AtomPc α} {fn : Option (α → α)} {rest refs : List Nat}
  {p q : Nat}

/-! ## The boxes -/

theorem copyBox_spec (hc : Counted s.heap refs) (hp : p ∈ refs) :
    ∃ heap, s.copyBox p = { s with heap } ∧ Counted heap (p :: refs) ∧ ∀ b, heap.value? b = s.heap.value? b := by
  obtain ⟨heap, hinc, hcounted, hvalue⟩ := hc.inc hp
  exact ⟨heap, by rw [copyBox, hinc], hcounted, hvalue⟩

theorem destroyBox_spec (hc : Counted s.heap (p :: refs)) :
    ∃ heap, s.destroyBox p = { s with heap } ∧ Counted heap refs ∧
      ∀ b ∈ refs, heap.value? b = s.heap.value? b := by
  obtain ⟨heap, hdec, hcounted, hvalue⟩ := hc.dec
  exact ⟨heap, by rw [destroyBox, hdec], hcounted, hvalue⟩

/-- What a step of a call does: it keeps the boxes counted, and the values in them. It has no box of
anything but what it had, and what was in the cell. -/
structure Moves (s : RefcountAtomImpl α) (pc : AtomPc α) (rest : List Nat) (s' : RefcountAtomImpl α)
    (pc' : AtomPc α) : Prop where
  fault : s'.fault = s.fault
  threads : s'.threads = s.threads
  counted : Counted s'.heap (s'.impl :: (pc'.refs ++ rest))
  value : ∀ b ∈ s'.impl :: (pc'.refs ++ rest), s'.heap.value? b = s.heap.value? b
  lock : (if s'.lock then 1 else 0) + (if pc.holdsLock then 1 else 0) =
    (if s.lock then 1 else 0) + if pc'.holdsLock then 1 else 0
  ok : pc'.Ok s'.impl
  refs : ∀ b ∈ pc'.refs, b = s.impl ∨ b ∈ pc.refs
  fresh : ∀ b ∈ pc'.fresh, b ∈ pc.fresh
  impl : s'.impl = s.impl ∨ ∃ p q, pc = .assigning p q ∧ s'.impl = q

/-- Nothing is copied and nothing destroyed. -/
theorem Moves.of_eq (hc : Counted s.heap (s.impl :: (pc.refs ++ rest))) (hheap : s'.heap = s.heap)
    (himpl : s'.impl = s.impl) (hrefs : pc'.refs = pc.refs) (hfresh : ∀ b ∈ pc'.fresh, b ∈ pc.fresh)
    (hfault : s'.fault = s.fault) (hthreads : s'.threads = s.threads)
    (hlock : (if s'.lock then 1 else 0) + (if pc.holdsLock then 1 else 0) =
      (if s.lock then 1 else 0) + if pc'.holdsLock then 1 else 0) (hok : pc'.Ok s.impl) :
    Moves s pc rest s' pc' where
  fault := hfault
  threads := hthreads
  counted := by rw [hheap, himpl, hrefs]; exact hc
  value b _ := by rw [hheap]
  lock := hlock
  ok := himpl ▸ hok
  refs b hb := .inr (hrefs ▸ hb)
  fresh := hfresh
  impl := .inl himpl

/-- A box is copied. -/
theorem Moves.copy (hc : Counted s.heap (s.impl :: (pc.refs ++ rest))) (hmine : p = s.impl ∨ p ∈ pc.refs)
    (hrefs : pc'.refs = p :: pc.refs) (hfresh : ∀ b ∈ pc'.fresh, b ∈ pc.fresh)
    (hlock : pc'.holdsLock = pc.holdsLock) (hok : pc'.Ok s.impl) : Moves s pc rest (s.copyBox p) pc' := by
  have hp : p ∈ s.impl :: (pc.refs ++ rest) := List.mem_cons.2 (hmine.imp_right (List.mem_append_left _))
  obtain ⟨heap, heq, hcounted, hvalue⟩ := copyBox_spec hc hp
  rw [heq]
  have hperm : (p :: s.impl :: (pc.refs ++ rest)).Perm (s.impl :: (pc'.refs ++ rest)) := by
    rw [hrefs]
    exact .swap _ _ _
  refine ⟨rfl, rfl, hcounted.perm hperm, fun b _ => hvalue b, by rw [hlock], hok, fun b hb => ?_, hfresh,
    .inl rfl⟩
  rw [hrefs] at hb
  rcases List.mem_cons.1 hb with rfl | hb
  · exact hmine
  · exact .inr hb

/-- A box is destroyed. -/
theorem Moves.destroy (hc : Counted s.heap (s.impl :: (pc.refs ++ rest))) (hrefs : pc.refs = p :: pc'.refs)
    (hfresh : ∀ b ∈ pc'.fresh, b ∈ pc.fresh) (hlock : pc'.holdsLock = pc.holdsLock) (hok : pc'.Ok s.impl) :
    Moves s pc rest (s.destroyBox p) pc' := by
  have hperm : (s.impl :: (pc.refs ++ rest)).Perm (p :: s.impl :: (pc'.refs ++ rest)) := by
    rw [hrefs]
    exact .swap _ _ _
  obtain ⟨heap, heq, hcounted, hvalue⟩ := destroyBox_spec (hc.perm hperm)
  rw [heq]
  refine ⟨rfl, rfl, hcounted, hvalue, by rw [hlock], hok, fun b hb => .inr ?_, hfresh, .inl rfl⟩
  rw [hrefs]
  exact List.mem_cons_of_mem _ hb

theorem tryLock_moves {spinning got : AtomPc α} (hs : s.tryLock spinning got = (s', pc'))
    (hc : Counted s.heap (s.impl :: (spinning.refs ++ rest))) (hok : spinning.Ok s.impl)
    (hrefs : got.refs = spinning.refs) (hfresh : got.fresh = spinning.fresh) (hknows : got.knows = [])
    (hfree : spinning.holdsLock = false) (hgot : got.holdsLock = true) : Moves s spinning rest s' pc' := by
  unfold tryLock at hs
  split at hs
  · cases hs
    exact .of_eq hc rfl rfl rfl (fun b hb => hb) rfl rfl rfl hok
  · next hlock =>
    cases hs
    simp only [Bool.not_eq_true] at hlock
    refine .of_eq hc rfl rfl hrefs (fun b hb => hfresh ▸ hb) rfl rfl (by simp [hlock, hfree, hgot]) ⟨?_, ?_⟩
    · rw [hknows]
      exact fun p hp => absurd hp List.not_mem_nil
    · rw [hfresh]
      exact hok.fresh

/-- The step of a call. -/
theorem stepPc_moves (hc : Counted s.heap (s.impl :: (pc.refs ++ rest))) (hok : pc.Ok s.impl)
    (hlocked : pc.holdsLock = true → s.lock = true) (hs : s.stepPc fn pc = some (s', pc')) :
    Moves s pc rest s' pc' := by
  have hnil (b : Nat) (hb : b ∈ ([] : List Nat)) : False := List.not_mem_nil hb
  have hsub (b : Nat) (hb : b ∈ ([] : List Nat)) : b ∈ pc.fresh := (hnil b hb).elim
  have hnone (impl : Nat) {pc : AtomPc α} (hknows : pc.knows = []) (hfresh : pc.fresh = []) : pc.Ok impl :=
    ⟨fun p hp => absurd (hknows ▸ hp) List.not_mem_nil, fun q hq => absurd (hfresh ▸ hq) List.not_mem_nil⟩
  cases pc with
  | entered =>
    have hs : s.tryLock .entered .locked = (s', pc') := Option.some.inj hs
    exact tryLock_moves hs hc hok rfl rfl rfl rfl rfl
  | locked =>
    cases hs
    exact .of_eq hc rfl rfl rfl hsub rfl rfl rfl
      ⟨fun p hp => List.mem_singleton.1 hp, fun q hq => (hnil q hq).elim⟩
  | copying p =>
    cases hs
    have hp : p = s.impl := hok.knows p (List.mem_singleton_self p)
    exact .copy hc (.inl hp) rfl hsub rfl (hnone _ rfl rfl)
  | copied p =>
    cases hs
    exact .of_eq hc rfl rfl rfl hsub rfl rfl (by simp [unlock, hlocked rfl, AtomPc.holdsLock]) (hnone _ rfl rfl)
  | loaded p =>
    obtain ⟨v, hv⟩ := hc.value (a := p) (List.mem_cons_of_mem _ List.mem_cons_self)
    cases fn with
    | some fn => cases hs
    | none =>
      simp only [stepPc, hv, Option.some.injEq, Prod.mk.injEq] at hs
      obtain ⟨rfl, rfl⟩ := hs
      exact .of_eq hc rfl rfl rfl hsub rfl rfl rfl (hnone _ rfl rfl)
  | seen p v =>
    cases hs
    exact .destroy hc rfl hsub rfl (hnone _ rfl rfl)
  | made p q =>
    have hs : s.tryLock (.made p q) (.relocked p q) = (s', pc') := Option.some.inj hs
    exact tryLock_moves hs hc hok rfl rfl rfl rfl rfl
  | relocked p q =>
    cases hs
    by_cases hp : p = s.impl
    · rw [if_pos hp]
      exact .of_eq hc rfl rfl rfl (fun b hb => hb) rfl rfl rfl
        ⟨fun b hb => List.mem_singleton.1 hb ▸ hp, hok.fresh⟩
    · rw [if_neg hp]
      exact .of_eq hc rfl rfl rfl (fun b hb => hb) rfl rfl rfl ⟨fun b hb => (hnil b hb).elim, hok.fresh⟩
  | same p q =>
    cases hs
    exact .copy hc (.inr List.mem_cons_self) rfl (fun b hb => hb) rfl
      ⟨hok.knows, hok.fresh⟩
  | assigning p q =>
    cases hs
    have hperm : (s.impl :: ([q, q, p] ++ rest)).Perm (q :: ([s.impl, p, q] ++ rest)) := by
      refine (List.Perm.swap _ _ _).trans (.cons _ (.cons _ ?_))
      exact .swap _ _ _
    refine ⟨rfl, rfl, hc.perm hperm, fun b _ => rfl, rfl, hnone _ rfl rfl, fun b hb => ?_, hsub,
      .inr ⟨p, q, rfl, rfl⟩⟩
    simp only [AtomPc.refs, List.mem_cons, List.not_mem_nil, or_false] at hb ⊢
    tauto
  | swapped p q aux =>
    cases hs
    exact .destroy hc rfl hsub rfl (hnone _ rfl rfl)
  | assigned p q =>
    cases hs
    have hq : q ∈ (AtomPc.assigned p q : AtomPc α).refs := List.mem_cons_of_mem _ (List.mem_singleton_self q)
    exact .copy hc (.inr hq) rfl hsub rfl (hnone _ rfl rfl)
  | returning p q =>
    cases hs
    exact .of_eq hc rfl rfl rfl hsub rfl rfl (by simp [unlock, hlocked rfl, AtomPc.holdsLock]) (hnone _ rfl rfl)
  | unlocked p q =>
    cases hs
    exact .destroy hc rfl hsub rfl (hnone _ rfl rfl)
  | newDestroyed p q =>
    cases hs
    exact .destroy hc rfl hsub rfl (hnone _ rfl rfl)
  | oldDestroyed q =>
    cases hs
    exact .destroy hc rfl hsub rfl (hnone _ rfl rfl)
  | differs p q =>
    cases hs
    exact .of_eq hc rfl rfl rfl (fun b hb => hb) rfl rfl (by simp [unlock, hlocked rfl, AtomPc.holdsLock])
      ⟨fun b hb => (hnil b hb).elim, hok.fresh⟩
  | failed p q =>
    cases hs
    exact .destroy hc rfl hsub rfl (hnone _ rfl rfl)
  | failedNew p =>
    cases hs
    exact .destroy hc rfl hsub rfl (hnone _ rfl rfl)
  | done seen => cases hs

/-- A call makes a box: at an address that nobody has a box at. -/
theorem make_spec {t : AtomThread α} (hc : Counted s.heap (s.impl :: (t.pc.refs ++ rest))) {address : Nat}
    (hs : s.make t address = some (s', pc')) :
    ∃ fn p v, t.fn = some fn ∧ t.pc = .loaded p ∧ s.heap.value? p = some v ∧ pc' = .made p address ∧
      ∃ heap, s' = { s with heap } ∧ Counted heap (s.impl :: (pc'.refs ++ rest)) ∧
        address ∉ s.impl :: (t.pc.refs ++ rest) ∧ heap.value? address = some (fn v) ∧
        ∀ b ∈ s.impl :: (t.pc.refs ++ rest), heap.value? b = s.heap.value? b := by
  obtain ⟨fn?, pc⟩ := t
  unfold make at hs
  dsimp only at hs hc
  split at hs
  · next fn p =>
    obtain ⟨v, hv⟩ := hc.value (a := p) (List.mem_cons_of_mem _ List.mem_cons_self)
    rw [hv] at hs
    obtain ⟨heap, halloc, heq⟩ := Option.map_eq_some_iff.1 hs
    cases heq
    obtain ⟨hcounted, hnew, hvalue, hothers⟩ := hc.alloc halloc
    exact ⟨fn, p, v, rfl, rfl, hv, rfl, heap, rfl, hcounted.perm (.swap _ _ _), hnew, hvalue, hothers⟩
  · cases hs

/-! ## The invariant -/

/-- The counts are the numbers of boxes, and the lock is set while one call holds it. -/
structure Shared (s : RefcountAtomImpl α) : Prop where
  fault : s.fault = false
  counted : Counted s.heap (s.impl :: s.threads.flatMap (·.pc.refs))
  lock : s.threads.countP (·.pc.holdsLock) = if s.lock then 1 else 0

def Sound (s : RefcountAtomImpl α) : Prop :=
  Threads.Holds Shared (fun s t => t.pc.Ok s.impl) (fun t u => t.pc.Apart u.pc) s s.threads

theorem sound_start (address : Nat) (v : α) (fns : List (Option (α → α))) : (start address v fns).Sound := by
  have hentered {t : AtomThread α} (ht : t ∈ (start address v fns).threads) : t.pc = .entered := by
    obtain ⟨fn, -, rfl⟩ := List.mem_map.1 ht
    rfl
  have hrefs : (start address v fns).threads.flatMap (·.pc.refs) = [] :=
    List.flatMap_eq_nil_iff.2 fun t ht => by rw [hentered ht]; rfl
  refine ⟨⟨rfl, ?_, ?_⟩, fun ht => ?_, fun _ hi hj => ?_⟩
  · rw [hrefs]
    exact counted_single address v
  · exact List.countP_eq_zero.2 fun t ht => by rw [hentered ht]; exact Bool.false_ne_true
  · rw [hentered ht]
    exact ⟨fun p hp => absurd hp List.not_mem_nil, fun q hq => absurd hq List.not_mem_nil⟩
  · rw [hentered (List.mem_of_getElem? hi), hentered (List.mem_of_getElem? hj)]
    exact ⟨fun q hq => absurd hq List.not_mem_nil, fun q hq => absurd hq List.not_mem_nil⟩

theorem mem_others {ts : List (AtomThread α)} {i j : Nat} {u : AtomThread α} (hij : i ≠ j)
    (hj : ts[j]? = some u) {b : Nat} (hb : b ∈ u.pc.refs) : b ∈ (ts.eraseIdx i).flatMap (·.pc.refs) :=
  List.mem_flatMap.2 ⟨u, List.mem_eraseIdx_iff_getElem?.2 ⟨j, hij.symm, hj⟩, hb⟩

/-- The boxes, with those of call `i` in front. -/
theorem Sound.counted (h : s.Sound) {i : Nat} {t : AtomThread α} (hi : s.threads[i]? = some t) :
    Counted s.heap (s.impl :: (t.pc.refs ++ (s.threads.eraseIdx i).flatMap (·.pc.refs))) :=
  h.shared.counted.perm (.cons _ (perm_flatMap hi))

theorem Sound.held (h : s.Sound) {i : Nat} {t : AtomThread α} (hi : s.threads[i]? = some t) :
    ∀ p ∈ t.pc.refs, ∃ v, s.heap.value? p = some v :=
  fun _ hp => (h.counted hi).value (List.mem_cons_of_mem _ (List.mem_append_left _ hp))

theorem Sound.locked (h : s.Sound) {t : AtomThread α} (ht : t ∈ s.threads) (hholds : t.pc.holdsLock = true) :
    s.lock = true := by
  have hpos : 0 < s.threads.countP (·.pc.holdsLock) := List.countP_pos_iff.2 ⟨t, ht, hholds⟩
  rw [h.shared.lock] at hpos
  by_contra hlock
  simp [hlock] at hpos

/-- Nobody else holds the lock. -/
theorem Sound.alone (h : s.Sound) {i j : Nat} {t u : AtomThread α} (hij : i ≠ j) (hi : s.threads[i]? = some t)
    (hj : s.threads[j]? = some u) (hholds : t.pc.holdsLock = true) : u.pc.holdsLock = false := by
  have hcount : s.threads.countP (·.pc.holdsLock) ≤ 1 := by
    rw [h.shared.lock]
    split <;> omega
  exact Threads.alone (p := fun t => t.pc.holdsLock) hcount hij hi hj hholds

/-- A call goes on, by a step that moves boxes as `Moves` says. -/
theorem Sound.moved (h : s.Sound) {i : Nat} {t : AtomThread α} (hi : s.threads[i]? = some t)
    (hmoves : Moves s t.pc ((s.threads.eraseIdx i).flatMap (·.pc.refs)) s' pc') :
    (resume i t (s', pc')).Sound := by
  have hset : (resume i t (s', pc')).threads = s.threads.set i { t with pc := pc' } := by
    rw [resume, hmoves.threads]
  unfold Sound
  rw [hset]
  refine h.step_of_ne AtomPc.Apart.symm hi ⟨?_, ?_, ?_⟩ hmoves.ok fun {j u} hij hj hok hapart => ⟨?_, ?_, ?_⟩
  · exact hmoves.fault.trans h.shared.fault
  · have hperm : ((s.threads.set i { t with pc := pc' }).flatMap (·.pc.refs)).Perm
        (pc'.refs ++ (s.threads.eraseIdx i).flatMap (·.pc.refs)) := perm_flatMap_set hi
    rw [hset]
    exact hmoves.counted.perm (.cons _ hperm.symm)
  · have hcount : (s.threads.set i { t with pc := pc' }).countP (·.pc.holdsLock) + _ = _ :=
      Threads.countP_step _ hi
    have hlock := hmoves.lock
    have hbefore := h.shared.lock
    rw [hset]
    show _ = if s'.lock then 1 else 0
    dsimp only at hcount
    omega
  · rcases hmoves.impl with himpl | ⟨p, q, hpc, himpl⟩
    · exact himpl ▸ hok
    · have hholds : t.pc.holdsLock = true := by rw [hpc]; rfl
      refine ⟨fun b hb => ?_, fun b hb => ?_⟩
      · rw [AtomPc.knows_eq_nil (h.alone hij hi hj hholds)] at hb
        exact absurd hb List.not_mem_nil
      · rintro rfl
        refine hapart.right _ hb ?_
        rw [hpc]
        exact himpl ▸ List.mem_cons_self
  · exact fun b hb => hapart.left b (hmoves.fresh b hb)
  · intro b hb hmine
    rcases hmoves.refs b hmine with rfl | hmine
    · exact hok.fresh _ hb rfl
    · exact hapart.right b hb hmine

/-- A call makes a box. -/
theorem Sound.made (h : s.Sound) {i address : Nat} {t : AtomThread α} (hi : s.threads[i]? = some t)
    (hs : s.make t address = some (s', pc')) : (resume i t (s', pc')).Sound := by
  obtain ⟨fn, p, v, -, hpc, -, rfl, heap, rfl, hcounted, hnew, -, -⟩ := make_spec (h.counted hi) hs
  have himpl : address ≠ s.impl := fun heq => hnew (heq ▸ List.mem_cons_self)
  refine h.step_of_ne AtomPc.Apart.symm hi ⟨h.shared.fault, ?_, ?_⟩ ⟨?_, ?_⟩ fun {j u} hij hj hok hapart =>
    ⟨hok, ?_, ?_⟩
  · have hperm : ((s.threads.set i { t with pc := .made p address }).flatMap (·.pc.refs)).Perm
        ([address, p] ++ (s.threads.eraseIdx i).flatMap (·.pc.refs)) := perm_flatMap_set hi
    exact hcounted.perm (.cons _ hperm.symm)
  · have hcount : (s.threads.set i { t with pc := .made p address }).countP (·.pc.holdsLock) + _ = _ :=
      Threads.countP_step _ hi
    have hbefore := h.shared.lock
    show _ = if s.lock then 1 else 0
    rw [hpc] at hcount
    exact hcount.trans hbefore
  · exact fun b hb => absurd hb List.not_mem_nil
  · exact fun b hb => List.mem_singleton.1 hb ▸ himpl
  · intro b hb hmine
    cases List.mem_singleton.1 hb
    exact hnew (List.mem_cons_of_mem _ (List.mem_append_right _ (mem_others hij hj hmine)))
  · intro b hb hmine
    rcases List.mem_cons.1 hmine with rfl | hmine
    · exact hnew (List.mem_cons_of_mem _ (List.mem_append_right _ (mem_others hij hj (u.pc.fresh_subset hb))))
    · exact hapart.right b hb (hpc ▸ hmine)

/-- Where the calls are when call `i` has gone on. -/
theorem resume_threads {i j : Nat} {t u : AtomThread α} (hi : s.threads[i]? = some t)
    (hthreads : s'.threads = s.threads) (hj : (resume i t (s', pc')).threads[j]? = some u) :
    i = j ∧ u = { t with pc := pc' } ∨ i ≠ j ∧ s.threads[j]? = some u := by
  rw [resume, hthreads] at hj
  dsimp only at hj
  by_cases hij : i = j
  · subst hij
    rw [List.getElem?_set_self (List.getElem?_eq_some_iff.1 hi).1, Option.some.injEq] at hj
    exact .inl ⟨rfl, hj.symm⟩
  · rw [List.getElem?_set_ne hij] at hj
    exact .inr ⟨hij, hj⟩

theorem step_cases {a : Action} (hs : s.step a = some s') :
    ∃ i t s₁ pc', s.threads[i]? = some t ∧ s' = resume i t (s₁, pc') ∧
      (a = .step i ∧ s.stepPc t.fn t.pc = some (s₁, pc') ∨
        ∃ address, a = .make i address ∧ s.make t address = some (s₁, pc')) := by
  unfold step at hs
  split at hs
  · cases hs
  · cases a with
    | step i =>
      obtain ⟨t, hi, hs⟩ := Option.bind_eq_some_iff.1 hs
      obtain ⟨⟨s₁, pc'⟩, hstep, rfl⟩ := Option.map_eq_some_iff.1 hs
      exact ⟨i, t, s₁, pc', hi, rfl, .inl ⟨rfl, hstep⟩⟩
    | make i address =>
      obtain ⟨t, hi, hs⟩ := Option.bind_eq_some_iff.1 hs
      obtain ⟨⟨s₁, pc'⟩, hmake, rfl⟩ := Option.map_eq_some_iff.1 hs
      exact ⟨i, t, s₁, pc', hi, rfl, .inr ⟨address, rfl, hmake⟩⟩

theorem Sound.stepPc_moves (h : s.Sound) {i : Nat} {t : AtomThread α} (hi : s.threads[i]? = some t)
    (hs : s.stepPc t.fn t.pc = some (s', pc')) :
    Moves s t.pc ((s.threads.eraseIdx i).flatMap (·.pc.refs)) s' pc' :=
  RefcountAtomImpl.stepPc_moves (h.counted hi) (h.each (List.mem_of_getElem? hi))
    (h.locked (List.mem_of_getElem? hi)) hs

theorem Sound.step (h : s.Sound) {a : Action} (hs : s.step a = some s') : s'.Sound := by
  obtain ⟨i, t, s₁, pc', hi, rfl, ⟨-, hs⟩ | ⟨address, -, hs⟩⟩ := step_cases hs
  · exact h.moved hi (h.stepPc_moves hi hs)
  · exact h.made hi hs

/-- A holder has three boxes for each call at most, and the one in the cell. So the `int` that counts them does
not overflow while there are fewer than 2^31 / 3 calls. -/
theorem Sound.count_le (h : s.Sound) {n : Nat} {v : α} (hp : s.heap p = some (v, n)) :
    n ≤ 3 * s.threads.length + 1 := by
  have hlength := length_flatMap_le (fun t : AtomThread α => t.pc.refs_length_le) s.threads
  have hcount := h.shared.counted.count_le hp
  rw [List.length_cons] at hcount
  omega

theorem run_sound {address : Nat} {v : α} {fns : List (Option (α → α))} {as : List Action}
    (hr : run step (start address v fns) as = some s) : s.Sound :=
  invariant (fun _ _ _ h hs => h.step hs) hr (sound_start address v fns)

/-- No holder is used after it was freed or freed twice, none is kept for nothing, and the lock is held by
one call at most. When all calls are done the box of the cell is the only one. -/
theorem run_memorySafe {address : Nat} {v : α} {fns : List (Option (α → α))} {as : List Action}
    (hr : run step (start address v fns) as = some s) :
    s.fault = false ∧ Counted s.heap (s.impl :: s.threads.flatMap (·.pc.refs)) ∧
      s.threads.countP (·.pc.holdsLock) = (if s.lock then 1 else 0) ∧
      ((∀ t ∈ s.threads, ∃ seen, t.pc = .done seen) →
        s.lock = false ∧ ∃ u, s.heap = Heap.set (fun _ => none) s.impl (some (u, 1))) := by
  obtain ⟨⟨hfault, hcounted, hlock⟩, -, -⟩ := run_sound hr
  refine ⟨hfault, hcounted, hlock, fun hdone => ⟨?_, ?_⟩⟩
  · have hzero : s.threads.countP (·.pc.holdsLock) = 0 := List.countP_eq_zero.2 fun t ht => by
      obtain ⟨seen, hpc⟩ := hdone t ht
      rw [hpc]
      exact Bool.false_ne_true
    by_contra hset
    rw [hlock, if_pos (by simpa using hset)] at hzero
    cases hzero
  · have hnil : s.threads.flatMap (·.pc.refs) = [] := List.flatMap_eq_nil_iff.2 fun t ht => by
      obtain ⟨seen, hpc⟩ := hdone t ht
      rw [hpc]
      rfl
    rw [hnil] at hcounted
    exact counted_singleton hcounted

/-- Two calls have loaded the same box when the first publishes. The second has to try again, and makes its
box where the old one was; `load` comes in between. -/
def retryReuses : List Action :=
  let load (i : Nat) : List Action := List.replicate 4 (.step i)
  load 0 ++ load 1 ++ [.make 0 8, .make 1 9] ++ List.replicate 10 (.step 0) ++ load 2 ++
    List.replicate 5 (.step 1) ++ load 1 ++ [.make 1 7] ++ List.replicate 10 (.step 1) ++ [.step 2, .step 2]

def retried : List (Option (Nat → Nat)) := [some (· + 1), some (· * 2), none]

theorem run_memorySafe_retryReuses :
    ∃ s, run step (start 7 5 retried) retryReuses = some s ∧ s.fault = false ∧
      ((∀ t ∈ s.threads, ∃ seen, t.pc = .done seen) →
        s.lock = false ∧ ∃ u, s.heap = Heap.set (fun _ => none) s.impl (some (u, 1))) := by
  obtain ⟨s, hr⟩ :=
    Option.isSome_iff_exists.1 (show (run step (start 7 5 retried) retryReuses).isSome = true by decide)
  obtain ⟨hfault, -, -, hdone⟩ := run_memorySafe hr
  exact ⟨s, hr, hfault, hdone⟩

end RefcountAtomImpl

end ConfigServer
