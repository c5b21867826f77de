/-
Runs of an executable transition function: `step s a` is the state after
action `a`, or `none` when `a` is not enabled in `s`. A run is the list of
its actions; a condition on the steps of a run (`Along`) is decidable
whenever the condition is.
-/
import Mathlib.Data.List.Basic

namespace Runs

variable {σ α : Type*} (step : σ → α → Option σ)

/-- The state a list of actions leads to. -/
def run : σ → List α → Option σ
  | s, [] => some s
  | s, a :: as => (step s a).bind fun s' => run s' as

/-- Every step of the run meets `P`, a condition on the action and the state before it. -/
def Along (P : σ → α → Prop) : σ → List α → Prop
  | _, [] => True
  | s, a :: as => P s a ∧ ∀ s', step s a = some s' → Along P s' as

instance decidableAlong {P : σ → α → Prop} [∀ s a, Decidable (P s a)] :
    ∀ (s : σ) (as : List α), Decidable (Along step P s as)
  | _, [] => .isTrue trivial
  | s, a :: as =>
    match h : step s a with
    | none => decidable_of_iff (P s a) ⟨fun hp => ⟨hp, by simp [h]⟩, And.left⟩
    | some s' =>
      have : Decidable (Along step P s' as) := decidableAlong s' as
      decidable_of_iff (P s a ∧ Along step P s' as)
        ⟨fun hp => ⟨hp.1, fun s'' hs => by rw [h, Option.some.injEq] at hs; exact hs ▸ hp.2⟩,
          fun hp => ⟨hp.1, hp.2 s' h⟩⟩

/-- What a run puts out, in order, where the action `a` taken in `s` puts out `out s a`. -/
def outputs {β : Type*} (out : σ → α → List β) : σ → List α → List β
  | _, [] => []
  | s, a :: as =>
    match step s a with
    | none => []
    | some s' => out s a ++ outputs out s' as

variable {step}

@[simp] theorem run_nil (s : σ) : run step s [] = some s := rfl

theorem run_cons {s s'' : σ} {a : α} {as : List α} :
    run step s (a :: as) = some s'' ↔ ∃ s', step s a = some s' ∧ run step s' as = some s'' := by
  simp [run, Option.bind_eq_some_iff]

theorem run_singleton {s s' : σ} {a : α} (h : step s a = some s') : run step s [a] = some s' :=
  run_cons.2 ⟨s', h, rfl⟩

theorem run_append {s s'' : σ} {as bs : List α} :
    run step s (as ++ bs) = some s'' ↔ ∃ s', run step s as = some s' ∧ run step s' bs = some s'' := by
  induction as generalizing s with
  | nil => simp
  | cons a as ih =>
    simp only [List.cons_append, run_cons, ih]
    constructor
    · rintro ⟨s₁, h₁, s₂, h₂, h₃⟩
      exact ⟨s₂, ⟨s₁, h₁, h₂⟩, h₃⟩
    · rintro ⟨s₂, ⟨s₁, h₁, h₂⟩, h₃⟩
      exact ⟨s₁, h₁, s₂, h₂, h₃⟩

theorem Along.append {P : σ → α → Prop} {s s' : σ} {as bs : List α} (h : Along step P s (as ++ bs))
    (hr : run step s as = some s') : Along step P s as ∧ Along step P s' bs := by
  induction as generalizing s with
  | nil => cases hr; exact ⟨trivial, h⟩
  | cons a as ih =>
    obtain ⟨s₁, h₁, h₂⟩ := run_cons.1 hr
    obtain ⟨hp, hrest⟩ := h
    have hsplit := ih (hrest s₁ h₁) h₂
    refine ⟨⟨hp, fun s'' hs => ?_⟩, hsplit.2⟩
    rw [h₁] at hs
    cases hs
    exact hsplit.1

theorem Along.and {P Q : σ → α → Prop} {s : σ} {as : List α} (hP : Along step P s as)
    (hQ : Along step Q s as) :
    Along step (fun s a => P s a ∧ Q s a) s as := by
  induction as generalizing s with
  | nil => trivial
  | cons a as ih => exact ⟨⟨hP.1, hQ.1⟩, fun s' hs => ih (hP.2 s' hs) (hQ.2 s' hs)⟩

/-- A condition on the actions alone. -/
theorem along_of_forall {Q : α → Prop} {as : List α} (hQ : ∀ a ∈ as, Q a) (s : σ) :
    Along step (fun _ a => Q a) s as := by
  induction as generalizing s with
  | nil => trivial
  | cons a as ih =>
    exact ⟨hQ a List.mem_cons_self, fun s' _ => ih (fun b hb => hQ b (List.mem_cons_of_mem a hb)) s'⟩

/-- A condition that every step meets. -/
theorem along_all {P : σ → α → Prop} (hP : ∀ s a, P s a) (s : σ) (as : List α) : Along step P s as := by
  induction as generalizing s with
  | nil => trivial
  | cons a as ih => exact ⟨hP s a, fun s' _ => ih s'⟩

/-- What every step meeting `P` preserves, every run whose steps meet `P` preserves. -/
theorem Along.invariant {P : σ → α → Prop} {I : σ → Prop}
    (hstep : ∀ s a s', I s → P s a → step s a = some s' → I s') {s s' : σ} {as : List α}
    (hP : Along step P s as) (hr : run step s as = some s') (hi : I s) : I s' := by
  induction as generalizing s with
  | nil => cases hr; exact hi
  | cons a as ih =>
    obtain ⟨s₁, h₁, h₂⟩ := run_cons.1 hr
    exact ih (hP.2 s₁ h₁) h₂ (hstep s a s₁ hi hP.1 h₁)

/-- A condition that follows from `P` and an invariant holds along every run that meets `P`. -/
theorem Along.of_invariant {P Q : σ → α → Prop} {I : σ → Prop} (hQ : ∀ s a, I s → P s a → Q s a)
    (hstep : ∀ s a s', I s → P s a → step s a = some s' → I s') {s : σ} {as : List α}
    (hP : Along step P s as) (hi : I s) : Along step Q s as := by
  induction as generalizing s with
  | nil => trivial
  | cons a as ih => exact ⟨hQ s a hi hP.1, fun s' hs => ih (hP.2 s' hs) (hstep s a s' hi hP.1 hs)⟩

/-- If a step reaches a good state just when it starts from one and meets `Q`,
then a run does just when it starts from one and all its steps meet `Q`. -/
theorem Along.reaches_iff {P Q : σ → α → Prop} {I G : σ → Prop}
    (hI : ∀ s a s', I s → P s a → step s a = some s' → I s')
    (hG : ∀ s a s', I s → P s a → step s a = some s' → (G s' ↔ G s ∧ Q s a)) {s s' : σ} {as : List α}
    (hP : Along step P s as) (hr : run step s as = some s') (hi : I s) :
    G s' ↔ G s ∧ Along step Q s as := by
  induction as generalizing s with
  | nil =>
    cases hr
    exact (and_iff_left trivial).symm
  | cons a as ih =>
    obtain ⟨s₁, h₁, h₂⟩ := run_cons.1 hr
    rw [ih (hP.2 s₁ h₁) h₂ (hI s a s₁ hi hP.1 h₁), hG s a s₁ hi hP.1 h₁, and_assoc]
    simp [Along, h₁]

/-- What a step cannot make true after it was false holds all along a run that ends with it. -/
theorem along_of_reached {I : σ → Prop} (hback : ∀ s a s', step s a = some s' → I s' → I s) {s s' : σ}
    {as : List α} (hr : run step s as = some s') (hi : I s') : Along step (fun s _ => I s) s as ∧ I s := by
  induction as generalizing s with
  | nil =>
    cases hr
    exact ⟨trivial, hi⟩
  | cons a as ih =>
    obtain ⟨s₁, h₁, h₂⟩ := run_cons.1 hr
    obtain ⟨halong, hnext⟩ := ih h₂
    have hfirst := hback s a s₁ h₁ hnext
    refine ⟨⟨hfirst, fun s'' hs => ?_⟩, hfirst⟩
    rw [h₁] at hs
    cases hs
    exact halong

/-- What every step meeting `P` preserves between the state and all that has
been put out, every run whose steps meet `P` preserves. -/
theorem Along.history {β : Type*} {out : σ → α → List β} {P : σ → α → Prop} {J : σ → List β → Prop}
    (hstep : ∀ s a s' sofar, J s sofar → P s a → step s a = some s' → J s' (sofar ++ out s a)) {s s' : σ}
    {as : List α} (hP : Along step P s as) (hr : run step s as = some s') {sofar : List β}
    (hi : J s sofar) : J s' (sofar ++ outputs step out s as) := by
  induction as generalizing s sofar with
  | nil =>
    cases hr
    rw [outputs, List.append_nil]
    exact hi
  | cons a as ih =>
    obtain ⟨s₁, h₁, h₂⟩ := run_cons.1 hr
    have hnext := ih (hP.2 s₁ h₁) h₂ (hstep s a s₁ sofar hi hP.1 h₁)
    rw [List.append_assoc] at hnext
    simp only [outputs, h₁]
    exact hnext

/-- What every step meeting `P` preserves between the state and the actions
taken so far, every run whose steps meet `P` preserves. -/
theorem Along.trace {P : σ → α → Prop} {J : σ → List α → Prop}
    (hstep : ∀ s a s' sofar, J s sofar → P s a → step s a = some s' → J s' (sofar ++ [a])) {s s' : σ}
    {as : List α} (hP : Along step P s as) (hr : run step s as = some s') {sofar : List α}
    (hi : J s sofar) : J s' (sofar ++ as) := by
  induction as generalizing s sofar with
  | nil =>
    cases hr
    rwa [List.append_nil]
  | cons a as ih =>
    obtain ⟨s₁, h₁, h₂⟩ := run_cons.1 hr
    rw [List.append_cons]
    exact ih (hP.2 s₁ h₁) h₂ (hstep s a s₁ sofar hi hP.1 h₁)

/-- What every step preserves between the state and the actions taken so far, every run preserves. -/
theorem trace {J : σ → List α → Prop}
    (hstep : ∀ s a s' sofar, J s sofar → step s a = some s' → J s' (sofar ++ [a])) {s s' : σ} {as : List α}
    (hr : run step s as = some s') {sofar : List α} (hi : J s sofar) : J s' (sofar ++ as) :=
  (along_all (fun _ _ => trivial) s as).trace (fun s a s' sofar hJ _ hs => hstep s a s' sofar hJ hs) hr hi

/-- Where each step is, in the view `f`, a run of another system (none, one or
several of its steps), every run is one too. -/
theorem run_outputs {τ β : Type*} {step' : τ → β → Option τ} {f : σ → τ} {acts : σ → α → List β}
    (hsim : ∀ s a s', step s a = some s' → run step' (f s) (acts s a) = some (f s')) {s s' : σ} {as : List α}
    (hr : run step s as = some s') : run step' (f s) (outputs step acts s as) = some (f s') := by
  induction as generalizing s with
  | nil =>
    cases hr
    rfl
  | cons a as ih =>
    obtain ⟨s₁, h₁, h₂⟩ := run_cons.1 hr
    simp only [outputs, h₁]
    exact run_append.2 ⟨f s₁, hsim s a s₁ h₁, ih h₂⟩

/-- What every step preserves, every run preserves. -/
theorem invariant {I : σ → Prop} (hstep : ∀ s a s', I s → step s a = some s' → I s') {s s' : σ}
    {as : List α} (hr : run step s as = some s') (hi : I s) : I s' := by
  have halong : Along step (fun _ _ => True) s as := along_of_forall (fun _ _ => trivial) s
  exact halong.invariant (fun s a s' hi _ h => hstep s a s' hi h) hr hi

/-- A relation between two states that is reflexive, transitive and holds
across every step from a state satisfying an invariant holds across runs. -/
theorem related {I : σ → Prop} {R : σ → σ → Prop} (hrefl : ∀ s, R s s)
    (htrans : ∀ {s₁ s₂ s₃}, R s₁ s₂ → R s₂ s₃ → R s₁ s₃)
    (hI : ∀ s a s', I s → step s a = some s' → I s')
    (hstep : ∀ s a s', I s → step s a = some s' → R s s') {s s' : σ} {as : List α}
    (hr : run step s as = some s') (hi : I s) : R s s' := by
  have h := invariant (I := fun t => I t ∧ R s t)
    (fun t a t' ⟨hIt, hRt⟩ ht => ⟨hI t a t' hIt ht, htrans hRt (hstep t a t' hIt ht)⟩) hr ⟨hi, hrefl s⟩
  exact h.2

end Runs
