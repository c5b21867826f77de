/-
`immer::atom` as the store uses it (`atom.hpp`, `box.hpp`, `spinlock_policy.hpp`,
`refcount_policy.hpp`): a box behind a spinlock. A box is a pointer to a holder
with a reference count; `load` and the last part of `update` run under the lock,
and the function given to `update` runs between them. Any number of threads call
`update`, each with a function of its own, or `load`. A step is one access to
the lock, to the pointer of the cell or to a count.

A count or a value that is used after its holder was freed is a fault. A holder
that is made may get any address that is free, so also one that was in use before.
Counts are natural numbers here; `Sound.count_le` says for how many calls the
`int` of the code is enough.
-/
import ConfigServer.Lib.RefHeap
import ConfigServer.Lib.Runs

namespace ConfigServer

open RefHeap

/-- Where a call is. `p` is the holder of `oldv`, `q` that of `newv`. -/
inductive AtomPc (α : Type)
  /-- Before `load()` has the lock. -/
  | entered
  | locked
  /-- `load()` has read the pointer of the cell, and has not counted its copy. -/
  | copying (p : Nat)
  | copied (p : Nat)
  /-- The lock is released: the box loaded is `oldv`, or what a caller of `load` has got. -/
  | loaded (p : Nat)
  /-- The caller of `load` has read the value. -/
  | seen (p : Nat) (v : α)
  /-- `newv` has been made. -/
  | made (p q : Nat)
  | relocked (p q : Nat)
  /-- The cell still has the holder of `oldv`. -/
  | same (p q : Nat)
  /-- `impl_ = newv`: the copy `aux` has been counted. -/
  | assigning (p q : Nat)
  /-- It has been swapped with the box of the cell. -/
  | swapped (p q aux : Nat)
  | assigned (p q : Nat)
  /-- The box to return has been counted. -/
  | returning (p q : Nat)
  | unlocked (p q : Nat)
  /-- `newv` has been destroyed. -/
  | newDestroyed (p q : Nat)
  /-- So has `oldv`; the caller has the box returned. -/
  | oldDestroyed (q : Nat)
  | differs (p q : Nat)
  | failed (p q : Nat)
  | failedNew (p : Nat)
  /-- The call and its caller are done. A caller of `load` has seen this value. -/
  | done (seen : Option α)

/-- A thread that calls `update(fn)`, or `load()`. -/
structure AtomThread (α : Type) where
  fn : Option (α → α)
  pc : AtomPc α := .entered

structure RefcountAtomImpl (α : Type) where
  heap : Heap α
  /-- The pointer of the box in the cell. -/
  impl : Nat
  /-- The flag of the spinlock. -/
  lock : Bool := false
  threads : List (AtomThread α)
  fault : Bool := false

namespace RefcountAtomImpl

variable {α : Type}

/-- A cell that has a box of `v`, at this address, and is shared by these calls. -/
def start (address : Nat) (v : α) (fns : List (Option (α → α))) : RefcountAtomImpl α where
  heap := Heap.set (fun _ => none) address (some (v, 1))
  impl := address
  threads := fns.map fun fn => { fn }

/-- A box is copied. -/
def copyBox (s : RefcountAtomImpl α) (p : Nat) : RefcountAtomImpl α :=
  match s.heap.inc p with
  | some heap => { s with heap }
  | none => { s with fault := true }

/-- `~box`. -/
def destroyBox (s : RefcountAtomImpl α) (p : Nat) : RefcountAtomImpl α :=
  match s.heap.dec p with
  | some heap => { s with heap }
  | none => { s with fault := true }

/-- `try_lock`; when the flag is set the loop of `lock` goes on. -/
def tryLock (s : RefcountAtomImpl α) (spinning got : AtomPc α) : RefcountAtomImpl α × AtomPc α :=
  if s.lock then (s, spinning) else ({ s with lock := true }, got)

def unlock (s : RefcountAtomImpl α) : RefcountAtomImpl α := { s with lock := false }

/-- The next step of a call, but for the one of `fn` that makes a box. -/
def stepPc (s : RefcountAtomImpl α) (fn : Option (α → α)) : AtomPc α → Option (RefcountAtomImpl α × AtomPc α)
  | .entered => some (s.tryLock .entered .locked)
  | .locked => some (s, .copying s.impl)
  | .copying p => some (s.copyBox p, .copied p)
  | .copied p => some (s.unlock, .loaded p)
  | .loaded p =>
    match fn, s.heap.value? p with
    | some _, _ => none
    | none, some v => some (s, .seen p v)
    | none, none => some ({ s with fault := true }, .loaded p)
  | .seen p v => some (s.destroyBox p, .done (some v))
  | .made p q => some (s.tryLock (.made p q) (.relocked p q))
  | .relocked p q => some (s, if p = s.impl then .same p q else .differs p q)
  | .same p q => some (s.copyBox q, .assigning p q)
  | .assigning p q => some ({ s with impl := q }, .swapped p q s.impl)
  | .swapped p q aux => some (s.destroyBox aux, .assigned p q)
  | .assigned p q => some (s.copyBox q, .returning p q)
  | .returning p q => some (s.unlock, .unlocked p q)
  | .unlocked p q => some (s.destroyBox q, .newDestroyed p q)
  | .newDestroyed p q => some (s.destroyBox p, .oldDestroyed q)
  | .oldDestroyed q => some (s.destroyBox q, .done none)
  | .differs p q => some (s.unlock, .failed p q)
  | .failed p q => some (s.destroyBox q, .failedNew p)
  | .failedNew p => some (s.destroyBox p, .entered)
  | .done _ => none

/-- `oldv.update(fn)`: the box of what `fn` returns gets a holder at a free address. -/
def make (s : RefcountAtomImpl α) (t : AtomThread α) (address : Nat) : Option (RefcountAtomImpl α × AtomPc α) :=
  match t.fn, t.pc with
  | some fn, .loaded p =>
    match s.heap.value? p with
    | some v => (s.heap.alloc address (fn v)).map fun heap => ({ s with heap }, .made p address)
    | none => some ({ s with fault := true }, .loaded p)
  | _, _ => none

inductive Action
  /-- Call `i` takes its next step. -/
  | step (i : Nat)
  /-- Call `i` runs its function, and makes a box at this address. -/
  | make (i address : Nat)

/-- Call `i` goes on. -/
def resume (i : Nat) (t : AtomThread α) : RefcountAtomImpl α × AtomPc α → RefcountAtomImpl α
  | (s, pc) => { s with threads := s.threads.set i { t with pc } }

def step (s : RefcountAtomImpl α) (a : Action) : Option (RefcountAtomImpl α) :=
  if s.fault then none
  else
    match a with
    | .step i => s.threads[i]?.bind fun t => (s.stepPc t.fn t.pc).map (resume i t)
    | .make i address => s.threads[i]?.bind fun t => (s.make t address).map (resume i t)

end RefcountAtomImpl

end ConfigServer
