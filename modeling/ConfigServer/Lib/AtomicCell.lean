/-
Calls that share an atomic cell. An update loads a box, applies its function to
the value, and publishes what it gets if the cell still has the box; else it
starts again. A load keeps the value. Loading and publishing are one step each.

However the calls are interleaved, the updates that have published did so one
after the other, once each, and a load has the value there was after some of
the first of them (`run_applied`).
-/
import ConfigServer.Lib.Atom
import ConfigServer.Lib.Runs

namespace AtomicCell

open Runs

variable {α : Type*}

inductive Pc (α : Type*)
  | entered
  | loaded (oldv : Box α)
  /-- A load has got this value. -/
  | done (seen : Option α)

/-- An update by `fn`, or a load. -/
structure Call (α : Type*) where
  fn : Option (α → α)
  pc : Pc α := .entered

end AtomicCell

structure AtomicCell (α : Type*) where
  cell : Box α
  calls : List (AtomicCell.Call α)

namespace AtomicCell

open Runs

variable {α : Type*}

def start (v : α) (fns : List (Option (α → α))) : AtomicCell α where
  cell := ⟨0, v⟩
  calls := fns.map fun fn => { fn }

def stepPc (cell : Box α) (fn : Option (α → α)) : Pc α → Option (Box α × Pc α)
  | .entered => some (cell, .loaded cell)
  | .loaded oldv =>
    match fn with
    | none => some (cell, .done (some oldv.value))
    | some fn =>
      match cell.publish oldv (fn oldv.value) with
      | some cell' => some (cell', .done none)
      | none => some (cell, .entered)
  | .done _ => none

def step (s : AtomicCell α) (i : Nat) : Option (AtomicCell α) :=
  s.calls[i]?.bind fun c =>
    (stepPc s.cell c.fn c.pc).map fun (cell, pc) => { cell, calls := s.calls.set i { c with pc } }

theorem step_of_call {s : AtomicCell α} {i : Nat} {c : Call α} {cell : Box α} {pc : Pc α}
    (hi : s.calls[i]? = some c) (hs : stepPc s.cell c.fn c.pc = some (cell, pc)) :
    s.step i = some { cell, calls := s.calls.set i { c with pc } } := by
  rw [step, hi, Option.bind_some, hs]
  rfl

/-! ## What a step leaves behind -/

/-- How many updates had been published when the call loaded its box; before and after, how many have been now. -/
def Pc.since (cell : Box α) : Pc α → Nat
  | .loaded oldv => oldv.impl
  | _ => cell.impl

/-- An update that has loaded a box is to publish or to fail. -/
def Pc.pending (fn : Option (α → α)) : Pc α → Nat
  | .loaded _ => if fn.isSome then 1 else 0
  | _ => 0

theorem Pc.since_mono {cell cell' : Box α} (hle : cell.impl ≤ cell'.impl) (pc : Pc α) :
    pc.since cell ≤ pc.since cell' := by
  cases pc with
  | entered => exact hle
  | loaded oldv => exact Nat.le_refl _
  | done seen => exact hle

/-- An update that fails does so because another has been published since it loaded. -/
theorem stepPc_since {cell cell' : Box α} {fn : Option (α → α)} {pc pc' : Pc α}
    (hle : ∀ oldv, pc = .loaded oldv → oldv.impl ≤ cell.impl) (hs : stepPc cell fn pc = some (cell', pc')) :
    cell.impl ≤ cell'.impl ∧ pc.since cell + pc.pending fn ≤ pc'.since cell' := by
  cases pc with
  | entered =>
    cases hs
    exact ⟨Nat.le_refl _, Nat.le_refl _⟩
  | loaded oldv =>
    have holdv := hle oldv rfl
    cases fn with
    | none =>
      cases hs
      exact ⟨Nat.le_refl _, holdv⟩
    | some f =>
      simp only [stepPc] at hs
      split at hs
      · next cell'' hpublish =>
        obtain ⟨himpl, rfl⟩ := Box.publish_eq_some.1 hpublish
        cases hs
        exact ⟨Nat.le_succ _, Nat.succ_le_succ holdv⟩
      · next hpublish =>
        cases hs
        exact ⟨Nat.le_refl _, Nat.lt_of_le_of_ne holdv (Box.publish_eq_none.1 hpublish)⟩
  | done seen => cases hs

/-! ## The order of the updates -/

/-- What the updates of these calls make of `v`, one after the other. -/
def applied (fns : List (Option (α → α))) (v : α) (order : List Nat) : α :=
  order.foldl (fun v i => (fns[i]?.join.map (· v)).getD v) v

/-- A call that has loaded or seen a value, when the updates so far are `order`. -/
def Pc.Explained (fns : List (Option (α → α))) (v : α) (order : List Nat) : Pc α → Prop
  | .entered => True
  | .loaded oldv => ∃ before, before <+: order ∧ oldv = ⟨before.length, applied fns v before⟩
  | .done none => True
  | .done (some seen) => ∃ before, before <+: order ∧ seen = applied fns v before

/-- Call `i` is an update that has published. -/
def Published (calls : List (Call α)) (i : Nat) : Prop := ∃ c, calls[i]? = some c ∧ c.pc = .done none

/-- The updates that have published are those in `order`. -/
structure Ordered (fns : List (Option (α → α))) (v : α) (s : AtomicCell α) (order : List Nat) : Prop where
  fn : s.calls.map Call.fn = fns
  cell : s.cell = ⟨order.length, applied fns v order⟩
  nodup : order.Nodup
  updates {i : Nat} : i ∈ order → ∃ f, fns[i]? = some (some f)
  published (i : Nat) : i ∈ order ↔ Published s.calls i
  explained : ∀ c ∈ s.calls, c.pc.Explained fns v order

variable {fns : List (Option (α → α))} {v : α} {s s' : AtomicCell α} {order : List Nat} {i : Nat} {cell : Box α}
  {pc pc' : Pc α}

theorem applied_concat {fn : α → α} (hi : fns[i]? = some (some fn)) :
    applied fns v (order ++ [i]) = fn (applied fns v order) := by
  rw [applied, List.foldl_append, applied]
  simp [hi]

theorem published_set {calls : List (Call α)} {c : Call α} (hi : i < calls.length) (j : Nat) :
    Published (calls.set i c) j ↔ if i = j then c.pc = .done none else Published calls j := by
  unfold Published
  split
  · next hij =>
    subst hij
    simp only [List.getElem?_set_self hi, Option.some.injEq, exists_eq_left']
  · next hij => rw [List.getElem?_set_ne hij]

theorem Pc.Explained.mono {order' : List Nat} (hpre : order <+: order') (h : pc.Explained fns v order) :
    pc.Explained fns v order' := by
  cases pc with
  | entered => trivial
  | loaded oldv =>
    obtain ⟨before, hbefore, heq⟩ := h
    exact ⟨before, hbefore.trans hpre, heq⟩
  | done seen =>
    cases seen with
    | none => trivial
    | some seen =>
      obtain ⟨before, hbefore, heq⟩ := h
      exact ⟨before, hbefore.trans hpre, heq⟩

theorem ordered_start (v : α) (fns : List (Option (α → α))) : Ordered fns v (start v fns) [] where
  fn := by simp [start, List.map_map, Function.comp_def]
  cell := rfl
  nodup := List.nodup_nil
  updates hi := absurd hi List.not_mem_nil
  published i := by
    constructor
    · exact fun hi => absurd hi List.not_mem_nil
    · rintro ⟨c, hc, hpc⟩
      obtain ⟨fn, -, rfl⟩ := List.mem_map.1 (List.mem_of_getElem? hc)
      cases hpc
  explained c hc := by
    obtain ⟨fn, -, rfl⟩ := List.mem_map.1 hc
    trivial

/-- What a step of a call does: it publishes, or the cell stays as it is. -/
theorem stepPc_cases {fn : Option (α → α)} (hcell : cell = ⟨order.length, applied fns v order⟩)
    (hpc : pc.Explained fns v order) (hs : stepPc cell fn pc = some (cell', pc')) :
    (cell' = cell ∧ pc' ≠ .done none ∧ pc'.Explained fns v order) ∨
      ∃ f, fn = some f ∧ pc' = .done none ∧ cell' = ⟨order.length + 1, f (applied fns v order)⟩ := by
  cases pc with
  | entered =>
    cases hs
    exact .inl ⟨rfl, nofun, order, List.prefix_rfl, hcell⟩
  | loaded oldv =>
    obtain ⟨before, hbefore, heq⟩ := hpc
    cases fn with
    | none =>
      cases hs
      exact .inl ⟨rfl, nofun, before, hbefore, congrArg Box.value heq⟩
    | some f =>
      simp only [stepPc] at hs
      split at hs
      · next cell'' hpublish =>
        obtain ⟨himpl, hnew⟩ := Box.publish_eq_some.1 hpublish
        cases hs
        -- the box is that of the cell, so nobody has published since it was loaded
        have hlength : before.length = order.length := by rw [heq, hcell] at himpl; exact himpl
        have hall : before = order := hbefore.eq_of_length hlength
        refine .inr ⟨f, rfl, rfl, ?_⟩
        rw [hnew, heq, hall, hcell]
      · cases hs
        exact .inl ⟨rfl, nofun, trivial⟩
  | done seen => cases hs

theorem Ordered.step (h : Ordered fns v s order) (hs : s.step i = some s') :
    ∃ order', order <+: order' ∧ Ordered fns v s' order' := by
  obtain ⟨c, hi, hs⟩ := Option.bind_eq_some_iff.1 hs
  obtain ⟨⟨cell', pc'⟩, hstep, rfl⟩ := Option.map_eq_some_iff.1 hs
  have hlt := (List.getElem?_eq_some_iff.1 hi).1
  have hnot : ¬ Published s.calls i := by
    rintro ⟨d, hd, hdone⟩
    rw [hi, Option.some.injEq] at hd
    rw [hd, hdone] at hstep
    cases hstep
  have hfns : (s.calls.set i { c with pc := pc' }).map Call.fn = fns := by
    rw [List.map_set, ← h.fn]
    refine List.ext_getElem? fun j => ?_
    by_cases hij : i = j
    · subst hij
      rw [List.getElem?_set_self (by simpa using hlt), List.getElem?_map, hi]
      rfl
    · rw [List.getElem?_set_ne hij]
  have hother {order' : List Nat} (hpre : order <+: order') (hmine : pc'.Explained fns v order') :
      ∀ d ∈ s.calls.set i { c with pc := pc' }, d.pc.Explained fns v order' := by
    intro d hd
    rcases List.mem_or_eq_of_mem_set hd with hd | rfl
    · exact (h.explained d hd).mono hpre
    · exact hmine
  rcases stepPc_cases h.cell (h.explained c (List.mem_of_getElem? hi)) hstep with
    ⟨rfl, hpc', hexplained⟩ | ⟨f, hfn, rfl, rfl⟩
  · refine ⟨order, List.prefix_rfl, hfns, h.cell, h.nodup, h.updates, fun j => ?_,
      hother List.prefix_rfl hexplained⟩
    rw [h.published, published_set hlt]
    split
    · next hij =>
      exact iff_of_false (hij ▸ hnot) hpc'
    · rfl
  · have hfnsi : fns[i]? = some (some f) := by rw [← h.fn, List.getElem?_map, hi, Option.map_some, hfn]
    refine ⟨order ++ [i], List.prefix_append _ _, hfns, ?_, ?_, fun {j} hj => ?_, fun j => ?_,
      hother (List.prefix_append _ _) trivial⟩
    · rw [applied_concat hfnsi, List.length_append, List.length_singleton]
    · exact List.nodup_append.2 ⟨h.nodup, List.pairwise_singleton _ i, fun a ha b hb hab => by
        cases List.mem_singleton.1 hb
        exact hnot ((h.published i).1 (hab ▸ ha))⟩
    · rcases List.mem_append.1 hj with hj | hj
      · exact h.updates hj
      · exact ⟨f, List.mem_singleton.1 hj ▸ hfnsi⟩
    · rw [List.mem_append, h.published, List.mem_singleton, published_set hlt]
      split
      · next hij => exact iff_of_true (.inr hij.symm) rfl
      · next hij => exact or_iff_left (Ne.symm hij)

/-- The updates that have published did so in some order, once each, and the cell has what they make of its
first value. Whatever a call has loaded was there after the first few of them. -/
theorem run_applied {is : List Nat} (hr : run step (start v fns) is = some s) : ∃ order, Ordered fns v s order :=
  invariant (I := fun s => ∃ order, Ordered fns v s order)
    (fun _ _ _ ⟨_, h⟩ hs => (h.step hs).imp fun _ h => h.2) hr ⟨[], ordered_start v fns⟩

end AtomicCell
