/-
Linearizability. A history records when the operations on an object are called
and when they return. It is linearizable if the operations can be given an
order in which, performed one at a time, they return what they did, and in
which an operation that had returned before another was called comes first.

The order is built up along the history: each operation is put at its end at
some point between its call and its return (`Linearizes.point`), and that is
all there is to show.
-/
import Mathlib.Data.List.Nodup

namespace Linearization

/-- What is seen from outside: the operation of caller `i` is called, or returns. -/
inductive Event (ι ω ρ : Type*)
  | call (i : ι) (op : ω)
  | ret (i : ι) (r : ρ)
deriving DecidableEq

/-- An operation as it is performed at one point. -/
structure Point (ι ω ρ : Type*) where
  id : ι
  op : ω
  ret : ρ
deriving DecidableEq

variable {σ ι ω ρ : Type*} (apply : σ → ω → σ × ρ)

/-- Performed one at a time from `s`, the operations return what they are said
to, and lead to `s'`. -/
def Legal : σ → List (Point ι ω ρ) → σ → Prop
  | s, [], s' => s = s'
  | s, p :: ps, s' => (apply s p.op).2 = p.ret ∧ Legal (apply s p.op).1 ps s'

/-- The order `ps` explains the history `h`, and the object is left in `s`. -/
structure Linearizes (s₀ : σ) (h : List (Event ι ω ρ)) (ps : List (Point ι ω ρ)) (s : σ) : Prop where
  legal : Legal apply s₀ ps s
  /-- Each caller has one point at most. -/
  nodup : (ps.map Point.id).Nodup
  /-- Only what was called is performed. -/
  called {p : Point ι ω ρ} : p ∈ ps → .call p.id p.op ∈ h
  /-- What has returned was performed, and returned that. -/
  returned {i : ι} {r : ρ} : .ret i r ∈ h → ∃ p ∈ ps, p.id = i ∧ p.ret = r
  /-- The order is that of real time, where there is one. -/
  ordered {i : ι} {r : ρ} {p : Point ι ω ρ} : p ∈ ps → [.ret i r, .call p.id p.op].Sublist h →
    ∃ q, q.id = i ∧ [q, p].Sublist ps

variable {apply} {s₀ s : σ} {h : List (Event ι ω ρ)} {ps : List (Point ι ω ρ)}

theorem Legal.append {p : Point ι ω ρ} (hl : Legal apply s₀ ps s) (hret : (apply s p.op).2 = p.ret) :
    Legal apply s₀ (ps ++ [p]) (apply s p.op).1 := by
  induction ps generalizing s₀ with
  | nil =>
    cases hl
    exact ⟨hret, rfl⟩
  | cons q ps ih => exact ⟨hl.1, ih hl.2⟩

/-- One of a pair in order is the last: the pair was there before, or it is just being completed. -/
theorem pair_append {α : Type*} {a b c : α} {l : List α} (hl : [a, b].Sublist (l ++ [c])) :
    [a, b].Sublist l ∨ a ∈ l ∧ b = c := by
  obtain ⟨l₁, l₂, heq, h₁, h₂⟩ := List.sublist_append_iff.1 hl
  match l₂, List.sublist_singleton.1 h₂ with
  | [], _ =>
    rw [List.append_nil] at heq
    exact .inl (heq ▸ h₁)
  | [d], hd =>
    have hlast : [a] ++ [b] = l₁ ++ [d] := heq
    obtain ⟨rfl, hbd⟩ := List.append_inj' hlast rfl
    cases hbd
    exact .inr ⟨List.singleton_sublist.1 h₁, by simpa using hd⟩

theorem linearizes_nil (s₀ : σ) : Linearizes apply s₀ ([] : List (Event ι ω ρ)) [] s₀ where
  legal := rfl
  nodup := List.nodup_nil
  called hp := nomatch hp
  returned hr := nomatch hr
  ordered hp := nomatch hp

/-- A caller that has called nothing before calls an operation. -/
theorem Linearizes.call (hlin : Linearizes apply s₀ h ps s) {i : ι} (op : ω) (hfresh : ∀ op', .call i op' ∉ h) :
    Linearizes apply s₀ (h ++ [.call i op]) ps s where
  legal := hlin.legal
  nodup := hlin.nodup
  called hp := List.mem_append_left _ (hlin.called hp)
  returned hr := hlin.returned (by simpa using hr)
  ordered {j r p} hp hpair := by
    rcases pair_append hpair with hpair | ⟨-, heq⟩
    · exact hlin.ordered hp hpair
    · cases heq
      exact absurd (hlin.called hp) (hfresh _)

/-- An operation that has been called is performed. All those that have returned come before it. -/
theorem Linearizes.point (hlin : Linearizes apply s₀ h ps s) {p : Point ι ω ρ} (hcall : .call p.id p.op ∈ h)
    (hfresh : ∀ q ∈ ps, q.id ≠ p.id) (hret : (apply s p.op).2 = p.ret) :
    Linearizes apply s₀ h (ps ++ [p]) (apply s p.op).1 where
  legal := hlin.legal.append hret
  nodup := by
    rw [List.map_append, List.map_singleton, List.nodup_append]
    refine ⟨hlin.nodup, List.nodup_singleton _, fun i hi j hj hij => ?_⟩
    obtain ⟨q, hq, rfl⟩ := List.mem_map.1 hi
    exact hfresh q hq (hij.trans (List.mem_singleton.1 hj))
  called {q} hq := by
    rcases List.mem_append.1 hq with hq | hq
    · exact hlin.called hq
    · exact List.mem_singleton.1 hq ▸ hcall
  returned hr := (hlin.returned hr).imp fun q hq => ⟨List.mem_append_left _ hq.1, hq.2⟩
  ordered {j r q} hq hpair := by
    rcases List.mem_append.1 hq with hq | hq
    · exact (hlin.ordered hq hpair).imp fun q' hq' => ⟨hq'.1, hq'.2.trans (List.sublist_append_left ..)⟩
    · obtain ⟨q', hq', hid, -⟩ := hlin.returned (hpair.subset List.mem_cons_self)
      refine ⟨q', hid, ?_⟩
      rw [List.mem_singleton.1 hq]
      exact (List.singleton_sublist.2 hq').append (List.Sublist.refl [p])

/-- An operation that has been performed returns. -/
theorem Linearizes.ret (hlin : Linearizes apply s₀ h ps s) {p : Point ι ω ρ} (hp : p ∈ ps) :
    Linearizes apply s₀ (h ++ [.ret p.id p.ret]) ps s where
  legal := hlin.legal
  nodup := hlin.nodup
  called hq := List.mem_append_left _ (hlin.called hq)
  returned {j r} hr := by
    rcases List.mem_append.1 hr with hr | hr
    · exact hlin.returned hr
    · cases List.mem_singleton.1 hr
      exact ⟨p, hp, rfl, rfl⟩
  ordered hq hpair := by
    rcases pair_append hpair with hpair | ⟨-, heq⟩
    · exact hlin.ordered hq hpair
    · cases heq

end Linearization
