/-
How many steps the calls on a shared store take. A GET takes at most eight. A
SET takes seven, and four more each time it has to try again, which it has to
only when another SET has published since it loaded the root; so other SETs cost
it four steps each.

A step is one of the store's model, in which loading the root and publishing are
one step of the atomic cell each. The atom does both under a spinlock: what a
call waits there for the lock is not counted, and a thread that is stopped while
it has the lock holds all others up. `AtomProgress` counts the steps on the atom.
-/
import ConfigServer.Linearizable

namespace ConfigServer

open Runs

/-! ## The steps of a call -/

/-- How many steps the attempt has taken that a call of `set` is in. -/
def SetPc.taken : SetPc → Nat
  | .entered => 0
  | .loaded _ => 1
  | .assigned _ _ => 2
  | .applied _ _ => 3
  | .published => 4
  | .countedTotal => 5
  | .countedWindow => 6
  | .done => 7

def GetPc.taken : GetPc → Nat
  | .entered => 0
  | .loaded _ => 1
  | .absent => 2
  | .found _ => 2
  | .incremented _ => 3
  | .countedTotal _ => 4
  | .countedWindow _ => 5
  | .readReads _ _ => 6
  | .readWrites _ _ _ => 7
  | .answered _ _ => 8

/-- The attempts that have failed so far were beaten by as many publications,
after the root `first` and up to the version the call works on. -/
def SetPc.Beaten (first root retries : Nat) : SetPc → Prop
  | .entered => first + retries ≤ root
  | .loaded oldv => first + retries ≤ oldv.impl
  | .assigned oldv _ => first + retries ≤ oldv.impl
  | .applied oldv _ => first + retries ≤ oldv.impl
  -- The last publication is its own.
  | .published => first + retries < root
  | .countedTotal => first + retries < root
  | .countedWindow => first + retries < root
  | .done => first + retries < root

/-- A call that has taken `n` steps. -/
def Call.Paced (first root n : Nat) : Call → Prop
  | .set c => ∃ retries, n = 4 * retries + c.pc.taken ∧ c.pc.Beaten first root retries
  | .get c => n = c.pc.taken

/-- The call is a `set` that has published. -/
def Call.published : Call → Bool
  | .set c => 4 ≤ c.pc.taken
  | .get _ => false

theorem SetPc.Beaten.mono {first root root' retries : Nat} {pc : SetPc} (hle : root ≤ root')
    (h : pc.Beaten first root retries) : pc.Beaten first root' retries := by
  cases pc <;> simp only [Beaten] at h ⊢ <;> omega

theorem Call.Paced.mono {first root root' n : Nat} {call : Call} (hle : root ≤ root')
    (h : call.Paced first root n) : call.Paced first root' n := by
  cases call with
  | get c => exact h
  | set c => exact h.imp fun retries hretries => ⟨hretries.1, hretries.2.mono hle⟩

section Step

variable {s s' : Store} {first n : Nat}

theorem Guarantee.root_le {own : Option EntryPtr} (h : Guarantee own s s') : s.root.impl ≤ s'.root.impl :=
  (h.held (Box.Held.refl _)).le

/-- The root gets a new version when, and only when, a `set` publishes. -/
theorem SetCall.Step.root {c c' : SetCall} (h : Step s c s' c') :
    s'.root.impl + (if Call.published (.set c) then 1 else 0) =
      s.root.impl + if Call.published (.set c') then 1 else 0 := by
  cases h <;> rfl

/-- No version a call holds is newer than the root. -/
theorem SetPc.Beaten.le {c : SetCall} {retries : Nat} (hok : c.Ok s)
    (h : c.pc.Beaten first s.root.impl retries) :
    first + retries + (if Call.published (.set c) then 1 else 0) ≤ s.root.impl := by
  obtain ⟨key, given, value, pc⟩ := c
  cases pc with
  | loaded oldv => exact Nat.le_trans h (Box.Held.le hok)
  | assigned oldv e => exact Nat.le_trans h (Box.Held.le hok.1)
  | applied oldv e => exact Nat.le_trans h (Box.Held.le hok.1)
  | _ => exact h

theorem SetCall.Step.paced {c c' : SetCall} (hok : c.Ok s) (h : Step s c s' c')
    (hpaced : (Call.set c).Paced first s.root.impl n) : (Call.set c').Paced first s'.root.impl (n + 1) := by
  obtain ⟨retries, rfl, hbeaten⟩ := hpaced
  cases h with
  | @publish key given value oldv e hsame =>
    refine ⟨retries, rfl, ?_⟩
    simp only [SetPc.Beaten] at hbeaten ⊢
    omega
  | @retry key given value oldv e hchanged =>
    -- Somebody has published since the call loaded the root.
    have hle : oldv.impl ≤ s.root.impl := hok.1.le
    refine ⟨retries + 1, by simp only [SetPc.taken]; omega, ?_⟩
    simp only [SetPc.Beaten] at hbeaten ⊢
    omega
  | _ => exact ⟨retries, rfl, hbeaten⟩

theorem GetCall.step_paced {c c' : GetCall} (h : c.step s = some (s', c')) : c'.pc.taken = c.pc.taken + 1 := by
  obtain ⟨key, pc⟩ := c
  cases pc with
  | loaded snap =>
    simp only [step] at h
    split at h
    · cases h
      rfl
    · cases h
      rfl
  | absent => cases h
  | answered e answer => cases h
  | _ =>
    cases h
    rfl

end Step

/-! ## The steps of all calls -/

namespace World

/-- How many of the calls but the `i`-th are SETs that have published. -/
def publishedBut (w : World) (i : Nat) : Nat := (w.calls.eraseIdx i).countP Call.published

/-- What holds after the steps `as`, from a store with the root version `first`. -/
structure Paced (first : Nat) (w : World) (as : List Action) : Prop where
  coherent : w.Coherent
  root : w.store.root.impl = first + w.calls.countP Call.published
  calls {i : Nat} {call : Call} :
    w.calls[i]? = some call → call.Paced first w.store.root.impl (as.count (.step i))
  /-- A call takes no step before it has started. -/
  rest {i : Nat} : w.calls.length ≤ i → as.count (.step i) = 0

variable {s : Store} {w w' : World} {first : Nat} {as : List Action} {call call' : Call} {i : Nat} {a : Action}

theorem paced_start {s₀ : Store} (hs₀ : s₀.Wf) : Paced s₀.root.impl { store := s₀ } [] where
  coherent := coherent_start hs₀
  root := rfl
  calls h := nomatch h
  rest _ := rfl

theorem count_append_ne (h : a ≠ .step i) : (as ++ [a]).count (.step i) = as.count (.step i) := by
  rw [List.count_append, List.count_singleton, if_neg (by simpa using h), Nat.add_zero]

/-- A call starts. -/
theorem Paced.spawn (h : w.Paced first as) (hcoherent : Coherent { w with calls := w.calls ++ [call] })
    (hcall : call.Paced first w.store.root.impl 0) (hpublished : call.published = false)
    (ha : ∀ i, a ≠ .step i) : Paced first { w with calls := w.calls ++ [call] } (as ++ [a]) where
  coherent := hcoherent
  root := by simp [List.countP_append, hpublished, h.root]
  calls {i d} hi := by
    rw [count_append_ne (ha i)]
    rw [List.getElem?_append] at hi
    split at hi
    · exact h.calls hi
    · next hge =>
      rw [h.rest (Nat.le_of_not_lt hge), List.mem_singleton.1 (List.mem_of_getElem? hi)]
      exact hcall
  rest {i} hi := by
    rw [count_append_ne (ha i)]
    refine h.rest (Nat.le_of_succ_le ?_)
    simpa using hi

/-- Call `i` takes a step. -/
theorem Paced.call_step (h : w.Paced first as) (hi : w.calls[i]? = some call)
    (hcoherent : Coherent { w with store := s, calls := w.calls.set i call' })
    (hroot : s.root.impl + (if call.published then 1 else 0) =
      w.store.root.impl + if call'.published then 1 else 0)
    (hle : w.store.root.impl ≤ s.root.impl)
    (hcall : call'.Paced first s.root.impl (as.count (.step i) + 1)) :
    Paced first { w with store := s, calls := w.calls.set i call' } (as ++ [.step i]) where
  coherent := hcoherent
  root := by
    have hcount : (w.calls.set i call').countP Call.published + (if call.published then 1 else 0) =
        w.calls.countP Call.published + if call'.published then 1 else 0 :=
      Threads.countP_step Call.published hi
    have hbefore := h.root
    dsimp only
    omega
  calls {j d} hj := by
    by_cases hij : i = j
    · subst hij
      rw [List.getElem?_set_self (List.getElem?_eq_some_iff.1 hi).1] at hj
      cases hj
      rw [List.count_append, List.count_singleton_self]
      exact hcall
    · rw [List.getElem?_set_ne hij] at hj
      rw [count_append_ne (by simpa using hij)]
      exact (h.calls hj).mono hle
  rest {j} hj := by
    rw [List.length_set] at hj
    have hlt := (List.getElem?_eq_some_iff.1 hi).1
    have hij : i ≠ j := by omega
    rw [count_append_ne (by simpa using hij)]
    exact h.rest hj

theorem Paced.step (h : w.Paced first as) (hs : w.step a = some w') : w'.Paced first (as ++ [a]) := by
  have hstep := step_spec hs
  have hcoherent := hstep.coherent h.coherent
  cases hstep with
  | callSet hkey hvalue =>
    refine h.spawn hcoherent ⟨0, rfl, ?_⟩ rfl fun i => by simp
    rw [h.root]
    exact Nat.le_add_right _ _
  | callGet => exact h.spawn hcoherent rfl rfl fun i => by simp
  | @set i c c' s hi hstep =>
    have hok := h.coherent.set_ok hi
    have hle := (hstep.guarantee h.coherent.shared hok).root_le
    exact h.call_step hi hcoherent hstep.root hle (hstep.paced hok (h.calls hi))
  | @get i c c' s hi hstep =>
    obtain ⟨s', c'', hc, heq⟩ := step_get hi hs
    have hroot : s'.root = w.store.root := (GetCall.step_spec hc).root
    rw [heq] at hcoherent ⊢
    refine h.call_step hi hcoherent (by rw [hroot]; rfl) (by rw [hroot]) ?_
    exact (congrArg Nat.succ (h.calls hi)).trans (GetCall.step_paced hc).symm
  | flush hflush =>
    have ha (i : Nat) : a ≠ .step i := by
      rintro rfl
      cases hflush
    obtain ⟨dirty, file, flush, rfl⟩ := hflush.frame
    refine ⟨hcoherent, h.root, fun {i call} hi => ?_, fun {i} hi => ?_⟩
    · rw [count_append_ne (ha i)]
      exact h.calls hi
    · rw [count_append_ne (ha i)]
      exact h.rest hi

/-- The attempts that failed were each beaten by another SET. -/
theorem Paced.set_count (h : w.Paced first as) {c : SetCall} (hi : w.calls[i]? = some (.set c)) :
    as.count (.step i) ≤ 4 * w.publishedBut i + c.pc.taken := by
  obtain ⟨retries, hcount, hbeaten⟩ := h.calls hi
  have hroot := h.root
  have herase : w.calls.countP Call.published =
      w.publishedBut i + if Call.published (.set c) then 1 else 0 := by
    obtain ⟨hlt, hget⟩ := List.getElem?_eq_some_iff.1 hi
    have hsplit : w.calls = w.calls.take i ++ .set c :: w.calls.drop (i + 1) := by
      rw [← hget, List.getElem_cons_drop, List.take_append_drop]
    rw [publishedBut, List.eraseIdx_eq_take_drop_succ]
    conv_lhs => rw [hsplit]
    simp only [List.countP_append, List.countP_cons]
    omega
  have hle := hbeaten.le (h.coherent.set_ok hi)
  omega

end World

/-! ## The next step of a call -/

theorem SetCall.step_isSome {s : Store} {c : SetCall} (hroom : s.next + 1 < SizeT.modulus)
    (hpc : c.pc ≠ .done) : (c.step s).isSome = true := by
  obtain ⟨key, given, value, pc⟩ := c
  cases pc with
  | loaded oldv =>
    have hnext : (s.findOrCreate oldv.value key).2.next < SizeT.modulus := by
      cases hlookup : oldv.value.lookup key with
      | none =>
        rw [Store.findOrCreate_absent hlookup]
        exact hroom
      | some e =>
        rw [Store.findOrCreate_found hlookup]
        exact Nat.lt_of_succ_lt hroom
    simp [step, hnext]
  | applied oldv e =>
    simp only [step]
    split <;> rfl
  | done => exact absurd rfl hpc
  | _ => rfl

theorem GetCall.step_isSome {s : Store} {c : GetCall} (hresult : (Call.get c).result? = none) :
    (c.step s).isSome = true := by
  obtain ⟨key, pc⟩ := c
  cases pc with
  | loaded snap =>
    simp only [step]
    split <;> rfl
  | absent => cases hresult
  | answered e answer => cases hresult
  | _ => rfl

theorem Call.step_isSome {s : Store} {call : Call} (hroom : s.next + 1 < SizeT.modulus)
    (hresult : call.result? = none) : (call.step s).isSome = true := by
  cases call with
  | set c =>
    have hpc : c.pc ≠ .done := by
      obtain ⟨key, given, value, pc⟩ := c
      rintro rfl
      cases hresult
    rw [Call.step, Option.isSome_map]
    exact SetCall.step_isSome hroom hpc
  | get c =>
    rw [Call.step, Option.isSome_map]
    exact GetCall.step_isSome hresult

/-- How many steps a call takes at most, when so many other SETs have published. -/
def Call.maxSteps (others : Nat) : Call → Nat
  | .set _ => 4 * others + 7
  | .get _ => 8

namespace World

theorem Paced.count_le {w : World} {first : Nat} {as : List Action} (h : w.Paced first as) {i : Nat}
    {call : Call} (hi : w.calls[i]? = some call) :
    as.count (.step i) ≤ call.maxSteps (w.publishedBut i) ∧
      (call.result? = none → as.count (.step i) < call.maxSteps (w.publishedBut i)) := by
  cases call with
  | set c =>
    have hcount := h.set_count hi
    obtain ⟨key, given, value, pc⟩ := c
    cases pc with
    | done => exact ⟨hcount, fun hresult => nomatch hresult⟩
    | _ =>
      simp only [SetPc.taken] at hcount
      simp only [Call.maxSteps]
      omega
  | get c =>
    have hcount : as.count (.step i) = c.pc.taken := h.calls hi
    obtain ⟨key, pc⟩ := c
    cases pc with
    | answered e answer => exact ⟨hcount.le, fun hresult => nomatch hresult⟩
    | _ =>
      simp only [GetPc.taken] at hcount
      simp only [Call.maxSteps]
      omega

/-- **Every call returns after a bounded number of steps of the store.** Whatever the
schedule, a call takes at most eight steps for a GET, and for a SET seven and four for
every other SET that has published; and as long as it has not returned it has a next
step. The wait for the lock of the atom is not among these steps. -/
theorem run_returns {s₀ : Store} (hs₀ : s₀.Wf) {as : List Action} {w : World}
    (hr : run step { store := s₀ } as = some w)
    (hroom : w.store.next + 1 < SizeT.modulus) {i : Nat} {call : Call} (hi : w.calls[i]? = some call) :
    as.count (.step i) ≤ call.maxSteps (w.publishedBut i) ∧
      (call.result? = none →
        as.count (.step i) < call.maxSteps (w.publishedBut i) ∧ (w.step (.step i)).isSome = true) := by
  have hpaced : w.Paced s₀.root.impl as :=
    trace (J := fun w as => w.Paced s₀.root.impl as) (fun _ _ _ _ h hs => h.step hs) hr (paced_start hs₀)
  obtain ⟨hle, hlt⟩ := hpaced.count_le hi
  refine ⟨hle, fun hresult => ⟨hlt hresult, ?_⟩⟩
  simp only [step, hi, Option.isSome_map]
  exact Call.step_isSome hroom hresult

/-- Two SETs load the same root; the second publishes, and the first has to try again. -/
theorem run_returns_race :
    ∃ w c, run step { store := {} } (raceWith [97] [1] [98] [2]) = some w ∧ w.calls[0]? = some (.set c) ∧
      (raceWith [97] [1] [98] [2]).count (.step 0) = 11 ∧
      11 ≤ (Call.set c).maxSteps (w.publishedBut 0) := by
  have hfields : (run step { store := {} } (raceWith [97] [1] [98] [2])).map
      (fun w => (w.calls[0]?, w.store.next)) = some (some (.set ⟨[97], [1], [], .done⟩), 3) := by decide
  obtain ⟨w, hr, heq⟩ := Option.map_eq_some_iff.1 hfields
  obtain ⟨hcall, hnext⟩ := Prod.mk.inj heq
  have hcount : (raceWith [97] [1] [98] [2]).count (.step 0) = 11 := by decide
  have hreturns := run_returns Store.wf_empty hr (by rw [hnext]; decide) hcall
  exact ⟨w, _, hr, hcall, hcount, hcount ▸ hreturns.1⟩

end World

end ConfigServer
