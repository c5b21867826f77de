/-
Threads over a shared state, any of which may take the next step. What holds
in every interleaving is stated in three parts: of the shared state, of each
thread, and of any two threads. A step of one thread has to keep the first,
establish the second for itself, and leave the second and third alone for
any other thread.
-/
import Mathlib.Data.List.Basic
import Mathlib.Data.List.Perm.Basic

namespace Threads

variable {S T : Type*}

/-- `I` of the shared state, `L` of each thread, `C` of any two of them. -/
structure Holds (I : S → Prop) (L : S → T → Prop) (C : T → T → Prop) (s : S) (ts : List T) : Prop where
  shared : I s
  each {t : T} : t ∈ ts → L s t
  apart {i j : Nat} {t u : T} : i ≠ j → ts[i]? = some t → ts[j]? = some u → C t u

variable {I : S → Prop} {L : S → T → Prop} {C : T → T → Prop} {s s' : S} {ts : List T} {t t' : T} {i : Nat}

theorem Holds.nil (h : I s) : Holds I L C s [] := ⟨h, (fun h => nomatch h), fun _ h => nomatch h⟩

/-- Thread `i` takes a step; what has to be shown of another thread `j` may depend on where it is. -/
theorem Holds.step_of_ne (hsymm : ∀ {t u}, C t u → C u t) (h : Holds I L C s ts) (hi : ts[i]? = some t)
    (hI : I s') (hL : L s' t') (hrest : ∀ {j u}, i ≠ j → ts[j]? = some u → L s u → C t u → L s' u ∧ C t' u) :
    Holds I L C s' (ts.set i t') := by
  have hlt : i < ts.length := (List.getElem?_eq_some_iff.1 hi).1
  have hother {j : Nat} {u : T} (hij : i ≠ j) (hj : ts[j]? = some u) : L s' u ∧ C t' u :=
    hrest hij hj (h.each (List.mem_of_getElem? hj)) (h.apart hij hi hj)
  refine ⟨hI, fun {u} hu => ?_, fun {j k u v} hjk hj hk => ?_⟩
  · obtain ⟨j, hj⟩ := List.mem_iff_getElem?.1 hu
    by_cases hij : i = j
    · subst hij
      rw [List.getElem?_set_self hlt, Option.some.injEq] at hj
      exact hj ▸ hL
    · rw [List.getElem?_set_ne hij] at hj
      exact (hother hij hj).1
  · by_cases hij : i = j
    · subst hij
      rw [List.getElem?_set_self hlt, Option.some.injEq] at hj
      rw [List.getElem?_set_ne hjk] at hk
      exact hj ▸ (hother hjk hk).2
    · rw [List.getElem?_set_ne hij] at hj
      by_cases hik : i = k
      · subst hik
        rw [List.getElem?_set_self hlt, Option.some.injEq] at hk
        exact hk ▸ hsymm (hother hij hj).2
      · rw [List.getElem?_set_ne hik] at hk
        exact h.apart hjk hj hk

/-- Thread `i` takes a step. -/
theorem Holds.step (hsymm : ∀ {t u}, C t u → C u t) (h : Holds I L C s ts) (hi : ts[i]? = some t) (hI : I s')
    (hL : L s' t') (hrest : ∀ u, L s u → C t u → L s' u ∧ C t' u) : Holds I L C s' (ts.set i t') :=
  h.step_of_ne hsymm hi hI hL fun _ _ => hrest _

/-- A thread starts. -/
theorem Holds.spawn (hsymm : ∀ {t u}, C t u → C u t) (h : Holds I L C s ts) (hL : L s t)
    (hrest : ∀ u, C t u) :
    Holds I L C s (ts ++ [t]) := by
  refine ⟨h.shared, fun {u} hu => ?_, fun {j k u v} hjk hj hk => ?_⟩
  · rcases List.mem_append.1 hu with hu | hu
    · exact h.each hu
    · exact List.mem_singleton.1 hu ▸ hL
  · rw [List.getElem?_append] at hj hk
    split at hj
    · split at hk
      · exact h.apart hjk hj hk
      · have hv : v = t := List.mem_singleton.1 (List.mem_of_getElem? hk)
        exact hv ▸ hsymm (hrest u)
    · have hu : u = t := List.mem_singleton.1 (List.mem_of_getElem? hj)
      exact hu ▸ hrest v

/-- Something besides the threads changes the shared state. -/
theorem Holds.env (h : Holds I L C s ts) (hI : I s') (hrest : ∀ u, L s u → L s' u) : Holds I L C s' ts :=
  ⟨hI, fun hu => hrest _ (h.each hu), h.apart⟩

/-- A further assertion `A` about each thread is kept by a step of thread `i`
that establishes it for itself and leaves it alone for any other. -/
theorem Holds.each_step {A : S → T → Prop} (h : Holds I L C s ts) (hA : ∀ u ∈ ts, A s u)
    (hi : ts[i]? = some t) (hstep : A s' t')
    (hrest : ∀ u, L s u → C t u → A s u → A s' u) : ∀ u ∈ ts.set i t', A s' u := by
  intro u hu
  obtain ⟨j, hj⟩ := List.mem_iff_getElem?.1 hu
  by_cases hij : i = j
  · subst hij
    rw [List.getElem?_set_self (List.getElem?_eq_some_iff.1 hi).1, Option.some.injEq] at hj
    exact hj ▸ hstep
  · rw [List.getElem?_set_ne hij] at hj
    have hmem := List.mem_of_getElem? hj
    exact hrest u (h.each hmem) (h.apart hij hi hj) (hA u hmem)

/-- The number of threads that meet `p`, across a step of one of them. -/
theorem countP_step (p : T → Bool) (hi : ts[i]? = some t) :
    (ts.set i t').countP p + (if p t then 1 else 0) = ts.countP p + if p t' then 1 else 0 := by
  obtain ⟨hlt, hget⟩ := List.getElem?_eq_some_iff.1 hi
  have hset := List.countP_set (p := p) (a := t') hlt
  have hpos : p t = true → 0 < ts.countP p := fun hp =>
    List.countP_pos_iff.2 ⟨t, List.mem_of_getElem? hi, hp⟩
  rw [hget] at hset
  rw [hset]
  split
  · next hp =>
    have := hpos hp
    omega
  · omega

/-- Where one thread at most meets `p`, and one does, no other does. -/
theorem alone {j : Nat} {u : T} {p : T → Bool} (hcount : ts.countP p ≤ 1) (hij : i ≠ j) (hi : ts[i]? = some t)
    (hj : ts[j]? = some u) (ht : p t = true) : p u = false := by
  obtain ⟨hlt, hget⟩ := List.getElem?_eq_some_iff.1 hi
  have hperm : ts.Perm (t :: ts.eraseIdx i) := hget ▸ (List.getElem_cons_eraseIdx_perm hlt).symm
  rw [hperm.countP_eq, List.countP_cons_of_pos ht] at hcount
  have hzero : (ts.eraseIdx i).countP p = 0 := by omega
  have hmem : u ∈ ts.eraseIdx i := List.mem_eraseIdx_iff_getElem?.2 ⟨j, hij.symm, hj⟩
  simpa using List.countP_eq_zero.1 hzero u hmem

theorem countP_spawn (p : T → Bool) : (ts ++ [t]).countP p = ts.countP p + if p t then 1 else 0 := by
  rw [List.countP_append, List.countP_singleton]

/-- A 64-bit counter that has counted the threads meeting `p` goes on doing so
if a step adds to it what the step adds to them. -/
theorem counter_step {r r' r₀ : UInt64} {p : T → Bool} (hi : ts[i]? = some t)
    (hr : r = r₀ + UInt64.ofNat (ts.countP p))
    (hstep : r' + (if p t then 1 else 0) = r + if p t' then 1 else 0) :
    r' = r₀ + UInt64.ofNat ((ts.set i t').countP p) := by
  have hbit (b : Bool) : (if b then 1 else 0 : UInt64) = UInt64.ofNat (if b then 1 else 0) := by
    cases b <;> rfl
  have hcount : (ts.set i t').countP p + (if p t then 1 else 0) = ts.countP p + if p t' then 1 else 0 :=
    countP_step p hi
  rw [hbit, hbit] at hstep
  apply (UInt64.add_left_inj (UInt64.ofNat (if p t then 1 else 0))).1
  calc r' + UInt64.ofNat (if p t then 1 else 0)
      = r₀ + UInt64.ofNat (ts.countP p) + UInt64.ofNat (if p t' then 1 else 0) := by rw [hstep, hr]
    _ = r₀ + UInt64.ofNat (ts.countP p + if p t' then 1 else 0) := by rw [UInt64.add_assoc, UInt64.ofNat_add]
    _ = r₀ + UInt64.ofNat ((ts.set i t').countP p + if p t then 1 else 0) := by rw [hcount]
    _ = r₀ + UInt64.ofNat ((ts.set i t').countP p) + UInt64.ofNat (if p t then 1 else 0) := by
      rw [UInt64.ofNat_add, UInt64.add_assoc]

end Threads
