/-
Memory whose values are reference counted: an address is free, or it has a value
and a count. `Counted h refs` says that the references there are, wherever they
are kept, are `refs`: each count is the number of references, and what nobody
refers to is free. While every reference is taken and dropped by `inc` and `dec`
no operation meets free memory, and nobody's value is changed or freed.

A count is a natural number. One of a fixed width agrees with it while there are
no more references than it can count (`Counted.count_le`).
-/
import Mathlib.Data.List.Perm.Basic

namespace RefHeap

variable {α : Type*}

abbrev Heap (α : Type*) := Nat → Option (α × Nat)

namespace Heap

def set (h : Heap α) (a : Nat) (x : Option (α × Nat)) : Heap α := fun b => if b = a then x else h b

def value? (h : Heap α) (a : Nat) : Option α := (h a).map Prod.fst

/-- A value is put at a free address, with one reference. -/
def alloc (h : Heap α) (a : Nat) (v : α) : Option (Heap α) :=
  if (h a).isNone then some (h.set a (some (v, 1))) else none

/-- One reference more; `none` in free memory. -/
def inc (h : Heap α) (a : Nat) : Option (Heap α) := (h a).map fun (v, n) => h.set a (some (v, n + 1))

/-- One reference less, and with the last one the value goes. -/
def dec (h : Heap α) (a : Nat) : Option (Heap α) :=
  (h a).map fun (v, n) => h.set a (if n = 1 then none else some (v, n - 1))

theorem set_self (h : Heap α) (a : Nat) (x : Option (α × Nat)) : h.set a x a = x := if_pos rfl

theorem set_ne (h : Heap α) {a b : Nat} (hne : b ≠ a) (x : Option (α × Nat)) : h.set a x b = h b := if_neg hne

end Heap

/-- The references to `h` are `refs`. -/
structure Counted (h : Heap α) (refs : List Nat) : Prop where
  held {a : Nat} : a ∈ refs → ∃ v, h a = some (v, refs.count a)
  free {a : Nat} : a ∉ refs → h a = none

variable {h h' : Heap α} {refs refs' : List Nat} {a b : Nat} {v : α}

theorem Counted.perm (hc : Counted h refs) (hperm : refs.Perm refs') : Counted h refs' where
  held ha := by
    rw [← hperm.count_eq]
    exact hc.held (hperm.mem_iff.2 ha)
  free ha := hc.free fun hmem => ha (hperm.mem_iff.1 hmem)

/-- What is referred to has a value. -/
theorem Counted.value (hc : Counted h refs) (ha : a ∈ refs) : ∃ v, h.value? a = some v := by
  obtain ⟨v, hv⟩ := hc.held ha
  exact ⟨v, by rw [Heap.value?, hv]; rfl⟩

/-- An address is in use exactly while there is a reference to it. -/
theorem Counted.mem_iff (hc : Counted h refs) : a ∈ refs ↔ h a ≠ none := by
  constructor
  · intro ha hnone
    obtain ⟨v, hv⟩ := hc.held ha
    rw [hnone] at hv
    cases hv
  · intro hne
    by_contra ha
    exact hne (hc.free ha)

/-- No count is greater than the number of all references. -/
theorem Counted.count_le (hc : Counted h refs) {n : Nat} (ha : h a = some (v, n)) : n ≤ refs.length := by
  have hused : h a ≠ none := by simp [ha]
  obtain ⟨u, hu⟩ := hc.held (hc.mem_iff.2 hused)
  cases ha.symm.trans hu
  exact List.count_le_length

theorem counted_single (a : Nat) (v : α) : Counted (Heap.set (fun _ => none) a (some (v, 1))) [a] where
  held {b} hb := by
    cases List.mem_singleton.1 hb
    exact ⟨v, by rw [Heap.set_self, List.count_singleton_self]⟩
  free {b} hb := Heap.set_ne _ (fun heq => hb (List.mem_singleton.2 heq)) _

/-- With one reference there is one value. -/
theorem counted_singleton (hc : Counted h [a]) : ∃ v, h = Heap.set (fun _ => none) a (some (v, 1)) := by
  obtain ⟨v, hv⟩ := hc.held (List.mem_singleton_self a)
  rw [List.count_singleton_self] at hv
  refine ⟨v, funext fun b => ?_⟩
  by_cases hba : b = a
  · rw [hba, hv, Heap.set_self]
  · rw [Heap.set_ne _ hba, hc.free fun hb => hba (List.mem_singleton.1 hb)]

/-- The address of a new value is one that nobody refers to. -/
theorem Counted.alloc (hc : Counted h refs) (hs : h.alloc a v = some h') :
    Counted h' (a :: refs) ∧ a ∉ refs ∧ h'.value? a = some v ∧ ∀ b ∈ refs, h'.value? b = h.value? b := by
  unfold Heap.alloc at hs
  split at hs
  · next hfree =>
    cases hs
    have hnew : a ∉ refs := fun ha => hc.mem_iff.1 ha (Option.isNone_iff_eq_none.1 hfree)
    have hne {b : Nat} (hb : b ∈ refs) : b ≠ a := fun heq => hnew (heq ▸ hb)
    refine ⟨⟨fun {b} hb => ?_, fun {b} hb => ?_⟩, hnew, ?_, fun b hb => ?_⟩
    · by_cases hba : b = a
      · subst hba
        exact ⟨v, by rw [Heap.set_self, List.count_cons_self, List.count_eq_zero.2 hnew]⟩
      · obtain ⟨u, hu⟩ := hc.held ((List.mem_cons.1 hb).resolve_left hba)
        exact ⟨u, by rw [Heap.set_ne _ hba, List.count_cons_of_ne (Ne.symm hba), hu]⟩
    · rw [List.mem_cons, not_or] at hb
      rw [Heap.set_ne _ hb.1, hc.free hb.2]
    · rw [Heap.value?, Heap.set_self]
      rfl
    · rw [Heap.value?, Heap.set_ne _ (hne hb)]
      rfl
  · cases hs

/-- A reference can be copied. -/
theorem Counted.inc (hc : Counted h refs) (ha : a ∈ refs) :
    ∃ h', h.inc a = some h' ∧ Counted h' (a :: refs) ∧ ∀ b, h'.value? b = h.value? b := by
  obtain ⟨v, hv⟩ := hc.held ha
  have hset : h.inc a = some (h.set a (some (v, refs.count a + 1))) := by rw [Heap.inc, hv, Option.map_some]
  refine ⟨_, hset, ⟨fun {b} hb => ?_, fun {b} hb => ?_⟩, fun b => ?_⟩
  · by_cases hba : b = a
    · subst hba
      exact ⟨v, by rw [Heap.set_self, List.count_cons_self]⟩
    · obtain ⟨u, hu⟩ := hc.held ((List.mem_cons.1 hb).resolve_left hba)
      exact ⟨u, by rw [Heap.set_ne _ hba, List.count_cons_of_ne (Ne.symm hba), hu]⟩
  · rw [List.mem_cons, not_or] at hb
    rw [Heap.set_ne _ hb.1, hc.free hb.2]
  · by_cases hba : b = a
    · subst hba
      rw [Heap.value?, Heap.set_self, Heap.value?, hv]
      rfl
    · rw [Heap.value?, Heap.set_ne _ hba]
      rfl

/-- A reference can be dropped, and the others keep their values. -/
theorem Counted.dec (hc : Counted h (a :: refs)) :
    ∃ h', h.dec a = some h' ∧ Counted h' refs ∧ ∀ b ∈ refs, h'.value? b = h.value? b := by
  obtain ⟨v, hv⟩ := hc.held List.mem_cons_self
  rw [List.count_cons_self] at hv
  have hset : h.dec a = some (h.set a (if a ∈ refs then some (v, refs.count a) else none)) := by
    rw [Heap.dec, hv, Option.map_some]
    dsimp only
    by_cases ha : a ∈ refs
    · have hpos := List.count_pos_iff.2 ha
      rw [if_pos ha, if_neg (show refs.count a + 1 ≠ 1 by omega), Nat.add_sub_cancel]
    · rw [if_neg ha, if_pos (show refs.count a + 1 = 1 by rw [List.count_eq_zero.2 ha])]
  refine ⟨_, hset, ⟨fun {b} hb => ?_, fun {b} hb => ?_⟩, fun b hb => ?_⟩
  · by_cases hba : b = a
    · subst hba
      exact ⟨v, by rw [Heap.set_self, if_pos hb]⟩
    · obtain ⟨u, hu⟩ := hc.held (List.mem_cons_of_mem _ hb)
      exact ⟨u, by rw [Heap.set_ne _ hba, hu, List.count_cons_of_ne (Ne.symm hba)]⟩
  · by_cases hba : b = a
    · subst hba
      rw [Heap.set_self, if_neg hb]
    · rw [Heap.set_ne _ hba, hc.free (fun hmem => (List.mem_cons.1 hmem).elim hba hb)]
  · by_cases hba : b = a
    · subst hba
      rw [Heap.value?, Heap.set_self, if_pos hb, Heap.value?, hv]
      rfl
    · rw [Heap.value?, Heap.set_ne _ hba]
      rfl

/-! ## References kept in a list of owners -/

variable {T : Type*} {f : T → List Nat} {ts : List T} {t t' : T} {i : Nat}

/-- The references of one owner, and those of the others. -/
theorem perm_flatMap (hi : ts[i]? = some t) : (ts.flatMap f).Perm (f t ++ (ts.eraseIdx i).flatMap f) := by
  obtain ⟨hlt, hget⟩ := List.getElem?_eq_some_iff.1 hi
  have hperm : ts.Perm (t :: ts.eraseIdx i) := hget ▸ (List.getElem_cons_eraseIdx_perm hlt).symm
  exact hperm.flatMap_right f

theorem perm_flatMap_set (hi : ts[i]? = some t) :
    ((ts.set i t').flatMap f).Perm (f t' ++ (ts.eraseIdx i).flatMap f) := by
  have hset : (ts.set i t')[i]? = some t' := List.getElem?_set_self (List.getElem?_eq_some_iff.1 hi).1
  have h := perm_flatMap (f := f) hset
  rwa [List.eraseIdx_set_eq] at h

theorem length_flatMap_le {k : Nat} (hk : ∀ t, (f t).length ≤ k) (ts : List T) :
    (ts.flatMap f).length ≤ k * ts.length := by
  induction ts with
  | nil => exact Nat.zero_le _
  | cons t ts ih =>
    have ht := hk t
    rw [List.flatMap_cons, List.length_append, List.length_cons, Nat.mul_succ]
    omega

end RefHeap
