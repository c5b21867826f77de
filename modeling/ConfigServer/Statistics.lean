/-
The request counters, shared by the threads that count requests and the timer
that reports them. `add_get` and `add_set` count a request in a total and in a
window, one atomic increment each; `dump_and_reset` loads the four counters for
the line it prints and then stores 0 to the two windows. One dump runs at a
time: the timer that calls it is started again when it has returned.

`missed r` are the increments of a window that a dump has loaded and not yet
cleared. They are what the reports leave out, and nothing else is.
-/
import ConfigServer.ConcurrentFacts

namespace ConfigServer

open Runs

/-! ## The counters -/

inductive Request
  | get
  | set
deriving DecidableEq

namespace Counters

def total (c : Counters) : Request → UInt64
  | .get => c.getTotal
  | .set => c.setTotal

def window (c : Counters) : Request → UInt64
  | .get => c.getWindow
  | .set => c.setWindow

def addTotal (c : Counters) : Request → Counters
  | .get => c.addGetTotal
  | .set => c.addSetTotal

def addWindow (c : Counters) : Request → Counters
  | .get => c.addGetWindow
  | .set => c.addSetWindow

@[simp] theorem total_addTotal (c : Counters) (r r' : Request) :
    (c.addTotal r').total r = c.total r + if r' = r then 1 else 0 := by
  cases r <;> cases r' <;> simp [total, addTotal, addGetTotal, addSetTotal]

@[simp] theorem window_addTotal (c : Counters) (r r' : Request) : (c.addTotal r').window r = c.window r := by
  cases r <;> cases r' <;> rfl

@[simp] theorem total_addWindow (c : Counters) (r r' : Request) : (c.addWindow r').total r = c.total r := by
  cases r <;> cases r' <;> rfl

@[simp] theorem window_addWindow (c : Counters) (r r' : Request) :
    (c.addWindow r').window r = c.window r + if r' = r then 1 else 0 := by
  cases r <;> cases r' <;> simp [window, addWindow, addGetWindow, addSetWindow]

end Counters

/-! ## add_get and add_set -/

/-- Where a call of `add_get` or `add_set` is. -/
inductive AddPc
  | entered
  | countedTotal
  | done
deriving DecidableEq

/-- A call of `add_get` or of `add_set`. -/
structure AddCall where
  request : Request
  pc : AddPc := .entered
deriving DecidableEq

namespace AddCall

def step (stats : Counters) (c : AddCall) : Option (Counters × AddCall) :=
  match c.pc with
  | .entered => some (stats.addTotal c.request, { c with pc := .countedTotal })
  | .countedTotal => some (stats.addWindow c.request, { c with pc := .done })
  | .done => none

/-- The call is between its two increments. One that has made neither has not begun. -/
def InProgress (c : AddCall) : Prop := c.pc = .countedTotal

instance (c : AddCall) : Decidable c.InProgress := inferInstanceAs (Decidable (_ = _))

/-- A call for `r` that has counted in the total only. -/
def between (r : Request) (c : AddCall) : Bool := c.request = r ∧ c.pc = .countedTotal

end AddCall

/-! ## dump_and_reset -/

/-- Where the dump is, with what it has loaded for the line it prints. -/
inductive DumpPc
  | idle
  | loadedGetTotal (getTotal : UInt64)
  | loadedSetTotal (getTotal setTotal : UInt64)
  | loadedGetWindow (getTotal setTotal getWindow : UInt64)
  /-- The line is printed. -/
  | printed
  | clearedSetWindow
deriving DecidableEq

structure Statistics where
  counters : Counters := {}
  calls : List AddCall := []
  dump : DumpPc := .idle
  /-- The lines printed so far. -/
  printed : List Counters := []
deriving DecidableEq

namespace Statistics

inductive Action
  /-- A thread calls `add_get` or `add_set`. -/
  | call (r : Request)
  /-- Call `i` takes its next step. -/
  | step (i : Nat)
  /-- The dump takes its next step; the first one enters it. -/
  | dump
deriving DecidableEq

def dumpStep (s : Statistics) : Statistics :=
  match s.dump with
  | .idle => { s with dump := .loadedGetTotal s.counters.getTotal }
  | .loadedGetTotal getTotal => { s with dump := .loadedSetTotal getTotal s.counters.setTotal }
  | .loadedSetTotal getTotal setTotal =>
    { s with dump := .loadedGetWindow getTotal setTotal s.counters.getWindow }
  | .loadedGetWindow getTotal setTotal getWindow =>
    { s with
      printed := s.printed ++ [⟨getTotal, setTotal, getWindow, s.counters.setWindow⟩]
      dump := .printed }
  -- `get_window = set_window = 0` assigns from right to left.
  | .printed => { s with counters := { s.counters with setWindow := 0 }, dump := .clearedSetWindow }
  | .clearedSetWindow => { s with counters := { s.counters with getWindow := 0 }, dump := .idle }

def step (s : Statistics) : Action → Option Statistics
  | .call r => some { s with calls := s.calls ++ [⟨r, .entered⟩] }
  | .step i =>
    match s.calls[i]? with
    | none => none
    | some call => (call.step s.counters).map fun (counters, call) =>
      { s with counters, calls := s.calls.set i call }
  | .dump => some s.dumpStep

/-! ## What is reported -/

/-- No call of `add_get`, `add_set` or `dump_and_reset` is in progress. -/
def Quiet (s : Statistics) : Prop := (∀ call ∈ s.calls, ¬ call.InProgress) ∧ s.dump = .idle

instance (s : Statistics) : Decidable s.Quiet := inferInstanceAs (Decidable (_ ∧ _))

/-- The sum of the windows printed so far. -/
def reported (s : Statistics) (r : Request) : UInt64 :=
  s.printed.foldl (fun sum line => sum + line.window r) 0

/-- What has been counted for `r` has been reported or is in the current window. -/
def Conserved (s : Statistics) (r : Request) : Prop := s.reported r + s.counters.window r = s.counters.total r

instance (s : Statistics) (r : Request) : Decidable (s.Conserved r) := inferInstanceAs (Decidable (_ = _))

end Statistics

namespace DumpPc

/-- The dump has loaded the window of `r` and not yet stored 0 to it. -/
def taken (pc : DumpPc) : Request → Bool
  | .get =>
    match pc with
    | .loadedGetWindow .. | .printed | .clearedSetWindow => true
    | _ => false
  | .set =>
    match pc with
    | .printed => true
    | _ => false

/-- The window of `r` the dump has loaded for the line it has not printed yet. -/
def loaded (pc : DumpPc) : Request → UInt64
  | .get =>
    match pc with
    | .loadedGetWindow _ _ getWindow => getWindow
    | _ => 0
  | .set => 0

end DumpPc

namespace Statistics

/-- The step counts a request for `r` in a window the dump has loaded and is still to clear. -/
def missed (r : Request) (s : Statistics) : Action → List AddCall
  | .step i => s.calls[i]?.toList.filter fun call => call.between r && s.dump.taken r
  | _ => []

/-- The requests for `r` that are past their second increment: they have been
printed or loaded, are in a window not yet loaded, or have been missed. -/
def settled (r : Request) (s : Statistics) (lost : List AddCall) : UInt64 :=
  s.reported r + s.dump.loaded r + (if s.dump.taken r then 0 else s.counters.window r)
    + UInt64.ofNat lost.length

/-- A request for `r` is in the total if it is past its second increment or between the two. -/
def Balanced (r : Request) (s : Statistics) (lost : List AddCall) : Prop :=
  s.counters.total r = s.settled r lost + UInt64.ofNat (s.calls.countP (AddCall.between r))

theorem balanced_start (r : Request) : Balanced r {} [] := by
  cases r <;> rfl

/-- A call that is entered has counted nothing yet. -/
theorem Balanced.call {r : Request} {s : Statistics} {lost : List AddCall} (h : Balanced r s lost)
    (r' : Request) : Balanced r { s with calls := s.calls ++ [⟨r', .entered⟩] } lost := by
  have hcount : (s.calls ++ [(⟨r', .entered⟩ : AddCall)]).countP (AddCall.between r) =
      s.calls.countP (AddCall.between r) := by
    rw [Threads.countP_spawn]
    simp [AddCall.between]
  unfold Balanced at h ⊢
  rw [hcount]
  exact h

/-- The first increment of a call puts it among those between the two. -/
theorem Balanced.countTotal {r r' : Request} {s : Statistics} {lost : List AddCall} {i : Nat}
    (h : Balanced r s lost) (hi : s.calls[i]? = some ⟨r', .entered⟩) :
    Balanced r
      { s with counters := s.counters.addTotal r', calls := s.calls.set i ⟨r', .countedTotal⟩ } lost := by
  have hsettled : settled r { s with
      counters := s.counters.addTotal r', calls := s.calls.set i ⟨r', .countedTotal⟩ } lost =
      s.settled r lost := by
    simp [settled, reported]
  unfold Balanced
  rw [hsettled]
  refine Threads.counter_step hi h ?_
  simp [AddCall.between]

theorem settled_taken {r : Request} {s : Statistics} (lost : List AddCall) (h : s.dump.taken r = true) :
    s.settled r lost = s.reported r + s.dump.loaded r + UInt64.ofNat lost.length := by
  unfold settled
  rw [if_pos h, UInt64.add_zero]

theorem settled_not_taken {r : Request} {s : Statistics} (lost : List AddCall)
    (h : s.dump.taken r = false) :
    s.settled r lost = s.reported r + s.dump.loaded r + s.counters.window r + UInt64.ofNat lost.length := by
  unfold settled
  rw [if_neg (Bool.eq_false_iff.1 h)]

/-- The second one puts it in the window, or makes it one of those missed. -/
theorem settled_countWindow {r r' : Request} {s : Statistics} {lost : List AddCall} {i : Nat}
    (hi : s.calls[i]? = some ⟨r', .countedTotal⟩) :
    settled r { s with counters := s.counters.addWindow r', calls := s.calls.set i ⟨r', .done⟩ }
      (lost ++ s.missed r (.step i)) = s.settled r lost + if r' = r then 1 else 0 := by
  by_cases hr : r' = r
  · cases htaken : s.dump.taken r with
    | true =>
      have hmissed : s.missed r (.step i) = [⟨r', .countedTotal⟩] := by
        simp [missed, hi, AddCall.between, hr, htaken]
      simp [settled, reported, hmissed, hr, htaken, UInt64.ofNat_add, UInt64.add_assoc]
    | false =>
      have hmissed : s.missed r (.step i) = [] := by simp [missed, hi, htaken]
      simp only [settled, reported, hmissed, hr, htaken, Counters.window_addWindow, List.append_nil, if_true,
        Bool.false_eq_true, if_false]
      grind
  · have hmissed : s.missed r (.step i) = [] := by simp [missed, hi, AddCall.between, hr]
    simp [settled, reported, hmissed, hr]

theorem Balanced.countWindow {r r' : Request} {s : Statistics} {lost : List AddCall} {i : Nat}
    (h : Balanced r s lost) (hi : s.calls[i]? = some ⟨r', .countedTotal⟩) :
    Balanced r { s with counters := s.counters.addWindow r', calls := s.calls.set i ⟨r', .done⟩ }
      (lost ++ s.missed r (.step i)) := by
  have hcount : (s.calls.set i ⟨r', .done⟩).countP (AddCall.between r) + (if r' = r then 1 else 0) =
      s.calls.countP (AddCall.between r) := by
    have hstep : (s.calls.set i ⟨r', .done⟩).countP (AddCall.between r) +
        (if AddCall.between r ⟨r', .countedTotal⟩ then 1 else 0) =
        s.calls.countP (AddCall.between r) + if AddCall.between r ⟨r', .done⟩ then 1 else 0 :=
      Threads.countP_step _ hi
    simpa [AddCall.between] using hstep
  have hbit : UInt64.ofNat (if r' = r then 1 else 0) = if r' = r then 1 else 0 := by split <;> rfl
  unfold Balanced at h ⊢
  rw [settled_countWindow hi, Counters.total_addWindow, h, ← hcount, UInt64.ofNat_add, hbit]
  grind

theorem reported_print (s : Statistics) (line : Counters) (dump : DumpPc) (r : Request) :
    reported { s with printed := s.printed ++ [line], dump } r = s.reported r + line.window r := by
  simp only [reported, List.foldl_append, List.foldl_cons, List.foldl_nil]

/-- Each step of the dump moves the windows on: to what is loaded, to what is
printed, and to 0 when they are among what is printed already. -/
theorem settled_dumpStep (r : Request) (s : Statistics) (lost : List AddCall) :
    s.dumpStep.settled r lost = s.settled r lost := by
  unfold dumpStep
  cases hd : s.dump with
  | loadedSetTotal getTotal setTotal =>
    cases r with
    | get =>
      rw [settled_taken _ rfl, settled_not_taken _ (by rw [hd]; rfl), hd]
      show s.reported .get + s.counters.getWindow + _ = s.reported .get + 0 + s.counters.getWindow + _
      rw [UInt64.add_zero]
    | set =>
      rw [settled_not_taken _ rfl, settled_not_taken _ (by rw [hd]; rfl), hd]
      rfl
  | loadedGetWindow getTotal setTotal getWindow =>
    cases r with
    | get =>
      rw [settled_taken _ rfl, settled_taken _ (by rw [hd]; rfl), hd, reported_print]
      show s.reported .get + getWindow + 0 + _ = s.reported .get + getWindow + _
      rw [UInt64.add_zero]
    | set =>
      rw [settled_taken _ rfl, settled_not_taken _ (by rw [hd]; rfl), hd, reported_print]
      show s.reported .set + s.counters.setWindow + 0 + _ = s.reported .set + 0 + s.counters.setWindow + _
      rw [UInt64.add_zero, UInt64.add_zero]
  -- In the other steps nothing moves but a window that has been taken, which is 0 then.
  | _ => cases r <;> simp only [settled, hd] <;> rfl

theorem dumpStep_calls (s : Statistics) : s.dumpStep.calls = s.calls := by
  unfold dumpStep
  split <;> rfl

theorem dumpStep_total (s : Statistics) (r : Request) : s.dumpStep.counters.total r = s.counters.total r := by
  unfold dumpStep
  cases r <;> split <;> rfl

theorem Balanced.dumpStep {r : Request} {s : Statistics} {lost : List AddCall} (h : Balanced r s lost) :
    Balanced r s.dumpStep lost := by
  unfold Balanced at h ⊢
  rw [dumpStep_total, settled_dumpStep, dumpStep_calls]
  exact h

theorem Balanced.step {r : Request} {s s' : Statistics} {lost : List AddCall} {a : Action}
    (h : Balanced r s lost) (hs : s.step a = some s') : Balanced r s' (lost ++ s.missed r a) := by
  cases a with
  | call r' =>
    cases hs
    simpa [missed] using h.call r'
  | step i =>
    cases hi : s.calls[i]? with
    | none => simp [Statistics.step, hi] at hs
    | some call =>
      obtain ⟨r', pc⟩ := call
      cases pc with
      | entered =>
        have hmissed : s.missed r (.step i) = [] := by simp [missed, hi, AddCall.between]
        simp only [Statistics.step, hi, AddCall.step, Option.map_some, Option.some.injEq] at hs
        rw [hmissed, List.append_nil, ← hs]
        exact h.countTotal hi
      | countedTotal =>
        simp only [Statistics.step, hi, AddCall.step, Option.map_some, Option.some.injEq] at hs
        rw [← hs]
        exact h.countWindow hi
      | done => simp [Statistics.step, hi, AddCall.step] at hs
  | dump =>
    cases hs
    simpa [missed] using h.dumpStep

theorem balanced_run {s : Statistics} {as : List Action} (hr : run step {} as = some s) (r : Request) :
    Balanced r s (outputs step (missed r) {} as) := by
  have halong : Along step (fun _ _ => True) ({} : Statistics) as := along_of_forall (fun _ _ => trivial) _
  simpa using halong.history (fun _ _ _ _ h _ hs => h.step hs) hr (balanced_start r)

/-- With no call in progress, what the reports and the current window leave out has been missed. -/
theorem Balanced.quiet {r : Request} {s : Statistics} {lost : List AddCall} (h : Balanced r s lost)
    (hq : s.Quiet) : s.counters.total r = s.reported r + s.counters.window r + UInt64.ofNat lost.length := by
  have hcount : s.calls.countP (AddCall.between r) = 0 := by
    rw [List.countP_eq_zero]
    intro call hcall
    have hdone := hq.1 call hcall
    simp_all [AddCall.between, AddCall.InProgress]
  have hloaded : s.dump.loaded r = 0 := by
    rw [hq.2]
    cases r <;> rfl
  have htaken : s.dump.taken r = false := by
    rw [hq.2]
    cases r <;> rfl
  unfold Balanced at h
  rw [settled_not_taken lost htaken, hcount, hloaded, UInt64.add_zero] at h
  exact h.trans (UInt64.add_zero _)

theorem ofNat_eq_zero {n : Nat} : UInt64.ofNat n = 0 ↔ 2 ^ 64 ∣ n := by
  rw [← UInt64.toNat_inj, UInt64.toNat_ofNat', UInt64.toNat_zero]
  exact Nat.dvd_iff_mod_eq_zero.symm

theorem Balanced.conserved_iff {r : Request} {s : Statistics} {lost : List AddCall} (h : Balanced r s lost)
    (hq : s.Quiet) : s.Conserved r ↔ 2 ^ 64 ∣ lost.length := by
  have hbalance := h.quiet hq
  unfold Conserved
  rw [hbalance, ← ofNat_eq_zero]
  constructor
  · intro h
    grind
  · intro h
    rw [h, UInt64.add_zero]

/-- At a moment when no call is in progress, the windows printed and the
current one add up to the total just when the increments missed do not show in 64 bits. -/
theorem windows_eq_total_iff {s : Statistics} {as : List Action} (hr : run step {} as = some s) (hq : s.Quiet)
    (r : Request) : s.Conserved r ↔ 2 ^ 64 ∣ (outputs step (missed r) {} as).length :=
  (balanced_run hr r).conserved_iff hq

/-- A GET counted in time for the first report, and one in time for the second. -/
def countedBetweenDumps : List Action :=
  [.call .get, .step 0, .step 0, .dump, .dump, .dump, .dump, .dump, .dump, .call .get, .call .set, .step 1,
    .step 1, .step 2, .step 2, .dump, .dump, .dump, .dump, .dump, .dump]

/-- The state `countedBetweenDumps` leads to. -/
def afterTwoDumps : Statistics where
  counters := ⟨2, 1, 0, 0⟩
  calls := [⟨.get, .done⟩, ⟨.get, .done⟩, ⟨.set, .done⟩]
  printed := [⟨1, 0, 1, 0⟩, ⟨2, 1, 1, 1⟩]

theorem windows_eq_total_iff_twoDumps :
    afterTwoDumps.Conserved .get ↔ 2 ^ 64 ∣ (outputs step (missed .get) {} countedBetweenDumps).length :=
  windows_eq_total_iff (by decide) (by decide) .get

/-- A GET counted in its window after the dump has loaded the window, and before it clears it. -/
def countedDuringDump : List Action :=
  [.call .get, .step 0, .dump, .dump, .dump, .step 0, .dump, .dump, .dump]

/-- The report and the window after it both leave the request out. -/
theorem windows_ne_total :
    ∃ s, run step {} countedDuringDump = some s ∧ s.Quiet ∧
      s.reported .get + s.counters.getWindow = 0 ∧ s.counters.getTotal = 1 ∧ ¬ s.Conserved .get :=
  ⟨⟨⟨1, 0, 0, 0⟩, [⟨.get, .done⟩], .idle, [⟨1, 0, 0, 0⟩]⟩, by decide⟩

end Statistics

/-! ## The counters of the store -/

/-- The `add_get` or `add_set` within a call on the store; a GET of an absent key never begins it. -/
def Call.add : Call → AddCall
  | .get c =>
    match c.pc with
    | .entered | .loaded _ | .absent | .found _ | .incremented _ => ⟨.get, .entered⟩
    | .countedTotal _ => ⟨.get, .countedTotal⟩
    | .countedWindow _ | .readReads .. | .readWrites .. | .answered .. => ⟨.get, .done⟩
  | .set c =>
    match c.pc with
    | .entered | .loaded _ | .assigned .. | .applied .. | .published => ⟨.set, .entered⟩
    | .countedTotal => ⟨.set, .countedTotal⟩
    | .countedWindow | .done => ⟨.set, .done⟩

/-- The next step of the call is one of its `add_get` or `add_set`. -/
def Call.counting : Call → Bool
  | .get c =>
    match c.pc with
    | .incremented _ | .countedTotal _ => true
    | _ => false
  | .set c =>
    match c.pc with
    | .published | .countedTotal => true
    | _ => false

/-- A step of a call on the store is a step of the `add_get` or `add_set` in it. -/
theorem Call.step_counting {s s' : Store} {call call' : Call} (hs : call.step s = some (s', call'))
    (hcounting : call.counting = true) : call.add.step s.stats = some (s'.stats, call'.add) := by
  cases call with
  | get c =>
    obtain ⟨key, pc⟩ := c
    cases pc with
    | incremented e => cases hs; rfl
    | countedTotal e => cases hs; rfl
    | _ => cases hcounting
  | set c =>
    obtain ⟨key, given, value, pc⟩ := c
    cases pc with
    | published => cases hs; rfl
    | countedTotal => cases hs; rfl
    | _ => cases hcounting

/-- Any other step of it leaves the counters alone. -/
theorem Call.step_not_counting {s s' : Store} {call call' : Call} (hs : call.step s = some (s', call'))
    (hcounting : call.counting = false) : s'.stats = s.stats ∧ call'.add = call.add := by
  cases call with
  | get c =>
    obtain ⟨key, pc⟩ := c
    cases pc with
    | loaded snap =>
      simp only [Call.step, GetCall.step] at hs
      split at hs
      · cases hs; exact ⟨rfl, rfl⟩
      · cases hs; exact ⟨rfl, rfl⟩
    | incremented e => cases hcounting
    | countedTotal e => cases hcounting
    | absent => cases hs
    | answered e answer => cases hs
    | _ => cases hs; exact ⟨rfl, rfl⟩
  | set c =>
    obtain ⟨⟨s', c'⟩, hc, heq⟩ := Option.map_eq_some_iff.1 hs
    cases heq
    cases SetCall.step_spec hc with
    | total => cases hcounting
    | window => cases hcounting
    | _ => exact ⟨rfl, rfl⟩

/-- The store with its threads, and the timer that reports. -/
structure Reporting where
  world : World
  dump : DumpPc := .idle
  printed : List Counters := []

namespace Reporting

inductive Action
  | world (action : ConfigServer.Action)
  | dump

def statistics (s : Reporting) : Statistics where
  counters := s.world.store.stats
  calls := s.world.calls.map Call.add
  dump := s.dump
  printed := s.printed

def step (s : Reporting) : Action → Option Reporting
  | .world action => (s.world.step action).map fun world => { s with world }
  | .dump =>
    let stats := s.statistics.dumpStep
    some ⟨{ s.world with store := { s.world.store with stats := stats.counters } }, stats.dump, stats.printed⟩

/-- The step of the statistics that a step is. -/
def counts (s : Reporting) : Action → List Statistics.Action
  | .world (.callGet _) => [.call .get]
  | .world (.callSet _ _) => [.call .set]
  | .world (.step i) => if s.world.calls[i]?.any Call.counting then [.step i] else []
  | .world _ => []
  | .dump => [.dump]

theorem step_statistics {s s' : Reporting} {a : Action} (hs : s.step a = some s') :
    run Statistics.step s.statistics (s.counts a) = some s'.statistics := by
  cases a with
  | world action =>
    obtain ⟨world, hworld, rfl⟩ := Option.map_eq_some_iff.1 hs
    cases action with
    | callGet key =>
      cases hworld
      simp [counts, run, Statistics.step, statistics, Call.add]
    | callSet key value =>
      cases World.step_spec hworld with
      | callSet => simp [counts, run, Statistics.step, statistics, Call.add]
      | flush h => cases h
    | step i =>
      simp only [World.step] at hworld
      split at hworld
      · cases hworld
      · next call hi =>
        obtain ⟨⟨store, call'⟩, hcall, rfl⟩ := Option.map_eq_some_iff.1 hworld
        cases hcounting : call.counting with
        | true =>
          simp [counts, hi, hcounting, run, Statistics.step, statistics, Call.step_counting hcall hcounting]
        | false =>
          obtain ⟨hstats, hadd⟩ := Call.step_not_counting hcall hcounting
          obtain ⟨hlt, hget⟩ := List.getElem?_eq_some_iff.1 hi
          have hcalls : (s.world.calls.map Call.add).set i call'.add = s.world.calls.map Call.add := by
            rw [hadd, ← hget, ← List.map_set, List.set_getElem_self hlt]
          simp [counts, hi, hcounting, statistics, hstats, hcalls]
    | _ =>
      cases World.step_spec hworld with
      | flush h => cases h <;> rfl
  | dump =>
    cases hs
    have hcalls : s.statistics.dumpStep.calls = s.world.calls.map Call.add := s.statistics.dumpStep_calls
    have hview (calls : List AddCall) (h : s.statistics.dumpStep.calls = calls) :
        s.statistics.dumpStep = { s.statistics.dumpStep with calls } := by rw [← h]
    exact congrArg some (hview _ hcalls)

theorem run_statistics {s s' : Reporting} {as : List Action} (hr : run step s as = some s') :
    run Statistics.step s.statistics (outputs step counts s as) = some s'.statistics :=
  run_outputs (fun _ _ _ => step_statistics) hr

/-- Of a server whose counters have started at 0: what the reports leave out of
the requests its store has counted are those counted during a dump. -/
theorem reported_iff {s₀ s : Reporting} {as : List Action} (hstart : s₀.statistics = {})
    (hr : run step s₀ as = some s) (hq : s.statistics.Quiet) (r : Request) :
    s.statistics.Conserved r ↔
      2 ^ 64 ∣ (outputs Statistics.step (Statistics.missed r) {} (outputs step counts s₀ as)).length := by
  have hrun := run_statistics hr
  rw [hstart] at hrun
  exact (Statistics.balanced_run hrun r).conserved_iff hq

end Reporting

end ConfigServer
