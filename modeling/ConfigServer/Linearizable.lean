/-
The values of a shared store are linearizable, in every run without a harmful
retry. A SET takes effect when its value goes into an entry the root has, or
else when the entry it has made is published. A GET takes effect when it copies
the value, or, if the root it loads does not have its key, when it loads it.

This is about the values only: the counts a GET answers with are loaded apart
from the value (see `TornPair`).
-/
import ConfigServer.Lib.CountedMap
import ConfigServer.Lib.Linearization
import ConfigServer.WriteRace

namespace ConfigServer

open Linearization Runs

/-! ## What callers see -/

abbrev MapOp := CountedMap.Op Bytes Bytes

inductive Answer
  | done
  | value (found : Option Bytes)
deriving DecidableEq

/-- An operation performed on a map of strings. -/
def MapOp.perform (content : Bytes → Option Bytes) : MapOp → (Bytes → Option Bytes) × Answer
  | .set key value => (Function.update content key (some value), .done)
  | .get key => (content, .value (content key))

def Call.op : Call → MapOp
  | .set c => .set c.key c.given
  | .get c => .get c.key

/-- What a call has returned. -/
def Call.result? : Call → Option Answer
  | .set ⟨_, _, _, .done⟩ => some .done
  | .get ⟨_, .absent⟩ => some (.value none)
  | .get ⟨_, .answered _ answer⟩ => some (.value (some answer.value))
  | _ => none

/-- What a call that has taken effect will return. -/
def Call.effect? : Call → Option Answer
  | .set c => if c.hasAssigned then some .done else none
  | .get ⟨key, .loaded snap⟩ => if snap.value.lookup key = none then some (.value none) else none
  | .get ⟨_, .absent⟩ => some (.value none)
  | .get ⟨_, .answered _ answer⟩ => some (.value (some answer.value))
  | _ => none

theorem Call.effect?_of_result? {call : Call} {answer : Answer} (h : call.result? = some answer) :
    call.effect? = some answer := by
  unfold result? at h
  split at h
  · exact h
  · exact h
  · exact h
  · cases h

/-- What a step shows from outside: a call starts, or the call that steps returns. -/
def World.events (w : World) : Action → List (Event Nat MapOp Answer)
  | .callSet key value => [.call w.calls.length (.set key value)]
  | .callGet key => [.call w.calls.length (.get key)]
  | .step i =>
    match w.calls[i]?.bind (Call.step w.store) with
    | some (_, call) => call.result?.toList.map (.ret i)
    | none => []
  | _ => []

/-! ## The step of a call -/

/-- The step of a call takes effect, in the content and in what the call will
return, or it leaves both as they are. -/
def Call.StepEffect (call call' : Call) (content content' : Bytes → Option Bytes) : Prop :=
  call'.effect? = call.effect? ∧ content' = content ∨
    call.effect? = none ∧ call'.effect? = some (call.op.perform content).2 ∧
      content' = (call.op.perform content).1

theorem SetCall.Step.effect {s s' : Store} {c c' : SetCall} (hwf : s.Wf) (hok : c.Ok s)
    (hharmless : c.RetryHarmless s) (harg : c.ArgOk s) (h : Step s c s' c') :
    Call.StepEffect (.set c) (.set c') s.content s'.content := by
  obtain ⟨hother, hself⟩ := h.content hwf hok hharmless harg
  have htakes (hbefore : c.hasAssigned = false) (hafter : c'.hasAssigned = true) :
      Call.StepEffect (.set c) (.set c') s.content s'.content := by
    refine .inr ⟨by simp [Call.effect?, hbefore], by simp [Call.effect?, hafter, Call.op, MapOp.perform], ?_⟩
    funext key
    by_cases hkey : key = c.key
    · subst hkey
      simp only [Call.op, MapOp.perform, Function.update_self]
      refine hself.resolve_right fun hsame => ?_
      rw [hsame.2 hafter] at hbefore
      cases hbefore
    · simp only [Call.op, MapOp.perform, Function.update_of_ne hkey]
      exact hother key hkey
  cases h with
  | load => exact .inl ⟨rfl, rfl⟩
  | assignFound hfound => exact htakes rfl (by simp [hasAssigned, hfound])
  | @assignNew key given value oldv habsent hroom =>
    refine .inl ⟨by simp [Call.effect?, hasAssigned, hasWritten, habsent], ?_⟩
    funext key'
    rw [Store.content, Store.makeShared_entryOf hwf, Store.content]
  | @count key given value oldv e =>
    refine .inl ⟨rfl, funext fun key' => ?_⟩
    exact Store.modify_map s e (f := fun en => { en with writes := en.writes + 1 }) (fun _ => rfl) key'
  | @publish key given value oldv e hsame =>
    cases hlookup : oldv.value.lookup key with
    | none => exact htakes (by simp [hasAssigned, hasWritten, hlookup]) rfl
    | some e' =>
      have hfound : oldv.value.lookup key = some e := by
        rcases hok.2 with hfound | ⟨habsent, -⟩
        · exact hfound
        · exact absurd (hlookup.symm.trans habsent) (Option.some_ne_none _)
      refine .inl ⟨by simp [Call.effect?, hasAssigned, hasWritten, hlookup], funext fun key' => ?_⟩
      rw [Store.content, publish_entryOf_found hwf hok.1 hsame hfound, Store.content]
  | retry hchanged => exact .inl ⟨by simp [Call.effect?, hasAssigned, hasWritten, (hharmless hchanged).2], rfl⟩
  | total => exact .inl ⟨rfl, rfl⟩
  | window => exact .inl ⟨rfl, rfl⟩
  | dirty => exact .inl ⟨rfl, rfl⟩

theorem GetCall.step_effect {s s' : Store} {c c' : GetCall} (hok : c.Ok s) (h : c.step s = some (s', c')) :
    c'.key = c.key ∧ Call.StepEffect (.get c) (.get c') s.content s'.content := by
  have hcontent : s'.content = s.content := funext (GetCall.step_spec h).content
  rw [hcontent]
  obtain ⟨key, pc⟩ := c
  cases pc with
  | entered =>
    cases h
    refine ⟨rfl, ?_⟩
    by_cases habsent : s.root.value.lookup key = none
    · have hnone : s.content key = none := by simp [Store.content, Store.entryOf, habsent]
      exact .inr ⟨rfl, by simp [Call.effect?, habsent, Call.op, MapOp.perform, hnone], rfl⟩
    · exact .inl ⟨by simp [Call.effect?, habsent], rfl⟩
  | loaded snap =>
    simp only [step] at h
    split at h
    · next habsent =>
      cases h
      exact ⟨rfl, .inl ⟨by simp [Call.effect?, habsent], rfl⟩⟩
    · next e hfound =>
      cases h
      exact ⟨rfl, .inl ⟨by simp [Call.effect?, hfound], rfl⟩⟩
  | readWrites e reads writes =>
    cases h
    have hsome : s.content key = some (s.heap e).value := by
      simp [Store.content, Store.entryOf, hok e rfl]
    exact ⟨rfl, .inr ⟨rfl, by simp [Call.effect?, Call.op, MapOp.perform, hsome], rfl⟩⟩
  | absent => cases h
  | answered e answer => cases h
  | _ =>
    cases h
    exact ⟨rfl, .inl ⟨rfl, rfl⟩⟩

/-! ## Runs -/

namespace World

/-- The history `h` of a run to `w` is explained by the points `ps`: those of the calls that have taken effect. -/
structure Linear (s₀ : Store) (w : World) (h : List (Event Nat MapOp Answer))
    (ps : List (Point Nat MapOp Answer)) : Prop where
  coherent : w.Coherent
  args : ∀ call ∈ w.calls, call.ArgOk w.store
  linearizes : Linearizes MapOp.perform s₀.content h ps w.store.content
  points {p : Point Nat MapOp Answer} :
    p ∈ ps ↔ ∃ call, w.calls[p.id]? = some call ∧ call.op = p.op ∧ call.effect? = some p.ret
  called {i : Nat} {op : MapOp} : .call i op ∈ h ↔ ∃ call, w.calls[i]? = some call ∧ call.op = op

variable {s₀ s : Store} {w w' : World} {h : List (Event Nat MapOp Answer)} {ps : List (Point Nat MapOp Answer)}
  {call call' : Call} {i : Nat} {a : Action}

theorem linear_start (hs₀ : s₀.Wf) : Linear s₀ { store := s₀ } [] [] where
  coherent := coherent_start hs₀
  args _ hmem := nomatch hmem
  linearizes := linearizes_nil _
  points := by simp
  called := by simp

/-- The flush, which touches no entry. -/
theorem Linear.flush (hlin : w.Linear s₀ h ps) (hstep : w.FlushStep a w') : w'.Linear s₀ h ps := by
  have hcoherent := Step.coherent hlin.coherent (.flush hstep)
  obtain ⟨dirty, file, flush, rfl⟩ := hstep.frame
  exact ⟨hcoherent, hlin.args, hlin.linearizes, hlin.points, hlin.called⟩

/-- A call starts. -/
theorem Linear.spawn (hlin : w.Linear s₀ h ps) (hcoherent : Coherent { w with calls := w.calls ++ [call] })
    (harg : call.ArgOk w.store) (heffect : call.effect? = none) :
    Linear s₀ { w with calls := w.calls ++ [call] } (h ++ [.call w.calls.length call.op]) ps := by
  have hget {j : Nat} {d : Call} (hd : d.effect? ≠ none) :
      (w.calls ++ [call])[j]? = some d ↔ w.calls[j]? = some d := by
    rw [List.getElem?_append]
    split
    · exact Iff.rfl
    · next hge =>
      rw [List.getElem?_eq_none (Nat.le_of_not_lt hge)]
      refine iff_of_false (fun hj => ?_) (by simp)
      rw [List.mem_singleton.1 (List.mem_of_getElem? hj)] at hd
      exact hd heffect
  refine ⟨hcoherent, fun d hd => ?_, hlin.linearizes.call _ fun op' hcall => ?_, fun {p} => ?_, fun {j op} => ?_⟩
  · rcases List.mem_append.1 hd with hd | hd
    · exact hlin.args d hd
    · exact List.mem_singleton.1 hd ▸ harg
  · obtain ⟨d, hd, -⟩ := hlin.called.1 hcall
    exact absurd (List.getElem?_eq_some_iff.1 hd).1 (Nat.lt_irrefl _)
  · rw [hlin.points]
    refine exists_congr fun d => and_congr_left fun hd => (hget ?_).symm
    rw [hd.2]
    exact Option.some_ne_none _
  · rw [List.mem_append, hlin.called]
    constructor
    · rintro (⟨d, hd, hop⟩ | hmem)
      · exact ⟨d, List.getElem?_append_left (List.getElem?_eq_some_iff.1 hd).1 ▸ hd, hop⟩
      · cases List.mem_singleton.1 hmem
        exact ⟨call, List.getElem?_concat_length, rfl⟩
    · rintro ⟨d, hd, rfl⟩
      rw [List.getElem?_append] at hd
      split at hd
      · exact .inl ⟨d, hd, rfl⟩
      · next hge =>
        have hlt := (List.getElem?_eq_some_iff.1 hd).1
        have hj : j = w.calls.length := by
          simp only [List.length_singleton] at hlt
          omega
        rw [List.mem_singleton.1 (List.mem_of_getElem? hd), hj]
        exact .inr List.mem_cons_self

/-- A call takes a step. -/
theorem Linear.effect (hlin : w.Linear s₀ h ps) (hi : w.calls[i]? = some call) (hop : call'.op = call.op)
    (hcoherent : Coherent { w with store := s, calls := w.calls.set i call' })
    (hargs : ∀ d ∈ w.calls.set i call', d.ArgOk s)
    (heffect : Call.StepEffect call call' w.store.content s.content) :
    ∃ ps', Linear s₀ { w with store := s, calls := w.calls.set i call' } h ps' := by
  have hlt := (List.getElem?_eq_some_iff.1 hi).1
  have hself : (w.calls.set i call')[i]? = some call' := List.getElem?_set_self hlt
  have hother {j : Nat} (hj : j ≠ i) : (w.calls.set i call')[j]? = w.calls[j]? := List.getElem?_set_ne hj.symm
  have hcalled {j : Nat} {op : MapOp} :
      .call j op ∈ h ↔ ∃ d, (w.calls.set i call')[j]? = some d ∧ d.op = op := by
    rw [hlin.called]
    by_cases hj : j = i
    · subst hj
      simp [hself, hi, hop]
    · rw [hother hj]
  rcases heffect with ⟨hsame, hcontent⟩ | ⟨hbefore, hafter, hcontent⟩
  · refine ⟨ps, hcoherent, hargs, hcontent ▸ hlin.linearizes, fun {p} => ?_, hcalled⟩
    rw [hlin.points]
    by_cases hj : p.id = i
    · simp [hj, hself, hi, hop, hsame]
    · rw [hother hj]
  · -- The call is put at the end of the order.
    have hfresh : ∀ q ∈ ps, q.id ≠ i := by
      rintro q hq rfl
      obtain ⟨d, hd, -, hret⟩ := hlin.points.1 hq
      cases hi.symm.trans hd
      exact nomatch hbefore.symm.trans hret
    have hpoint := hlin.linearizes.point (p := ⟨i, call.op, (call.op.perform w.store.content).2⟩)
      (hlin.called.2 ⟨call, hi, rfl⟩) hfresh rfl
    refine ⟨_, hcoherent, hargs, hcontent ▸ hpoint, fun {p} => ?_, hcalled⟩
    rw [List.mem_append, hlin.points, List.mem_singleton]
    by_cases hj : p.id = i
    · obtain ⟨id, op, ret⟩ := p
      dsimp only at hj
      subst hj
      simp [hself, hi, hop, hbefore, hafter, eq_comm]
    · rw [hother hj]
      refine or_iff_left fun hp => hj ?_
      rw [hp]

/-- A call that has taken effect returns. -/
theorem Linear.ret (hlin : w.Linear s₀ h ps) (hi : w.calls[i]? = some call) {answer : Answer}
    (hresult : call.result? = some answer) : w.Linear s₀ (h ++ [.ret i answer]) ps := by
  have hp : ⟨i, call.op, answer⟩ ∈ ps := hlin.points.2 ⟨call, hi, rfl, Call.effect?_of_result? hresult⟩
  refine ⟨hlin.coherent, hlin.args, hlin.linearizes.ret hp, hlin.points, fun {j op} => ?_⟩
  rw [← hlin.called, List.mem_append]
  exact or_iff_left (by simp)

/-- The step of a call that is no harmful retry takes effect as a whole, or has none. -/
theorem Coherent.call_effect (hcoherent : w.Coherent) (hargs : ∀ call ∈ w.calls, call.ArgOk w.store)
    (hharmless : w.RetryHarmless (.step i)) (hs : w.step (.step i) = some w') :
    ∃ call s call', w.calls[i]? = some call ∧ call.step w.store = some (s, call') ∧
      w' = { w with store := s, calls := w.calls.set i call' } ∧ call'.op = call.op ∧
        (∀ d ∈ w.calls.set i call', d.ArgOk s) ∧
      Call.StepEffect call call' w.store.content s.content := by
  obtain ⟨call, s, call', hi, hcall, rfl⟩ := step_call hs
  refine ⟨call, s, call', hi, hcall, rfl, ?_⟩
  cases call with
  | set c =>
    obtain ⟨⟨s, c'⟩, hc, heq⟩ := Option.map_eq_some_iff.1 hcall
    cases heq
    have hstep := SetCall.step_spec hc
    have hok := hcoherent.set_ok hi
    have harg : c.ArgOk w.store := hargs _ (List.mem_of_getElem? hi)
    have hretry : c.RetryHarmless w.store := by simpa only [World.RetryHarmless, hi] using hharmless
    have hg := hstep.guarantee hcoherent.shared hok
    refine ⟨?_, ?_, hstep.effect hcoherent.shared hok hretry harg⟩
    · rw [Call.op, Call.op, hstep.key, hstep.given]
    · exact hcoherent.each_step hargs hi (hstep.argOk hretry harg) fun u hu hapart hA =>
        hA.stable hg hu hapart
  | get c =>
    obtain ⟨⟨s, c'⟩, hc, heq⟩ := Option.map_eq_some_iff.1 hcall
    cases heq
    have hok := hcoherent.get_ok hi
    have hg := (GetCall.step_spec hc).guarantee hok
    obtain ⟨hkey, heffect⟩ := GetCall.step_effect hok hc
    refine ⟨?_, ?_, heffect⟩
    · rw [Call.op, Call.op, hkey]
    · exact hcoherent.each_step hargs hi trivial fun u hu hapart hA => hA.stable hg hu hapart

theorem Linear.step (hlin : w.Linear s₀ h ps) (hharmless : w.RetryHarmless a) (hs : w.step a = some w') :
    ∃ ps', w'.Linear s₀ (h ++ w.events a) ps' := by
  have hstep := step_spec hs
  have hcoherent := hstep.coherent hlin.coherent
  by_cases ha : ∃ i, a = .step i
  · obtain ⟨i, rfl⟩ := ha
    obtain ⟨call, s, call', hi, hcall, rfl, hop, hargs, heffect⟩ :=
      hlin.coherent.call_effect hlin.args hharmless hs
    obtain ⟨ps', hlin'⟩ := hlin.effect hi hop hcoherent hargs heffect
    refine ⟨ps', ?_⟩
    simp only [events, hi, Option.bind_some, hcall]
    cases hresult : call'.result? with
    | none => simpa using hlin'
    | some answer => exact hlin'.ret (List.getElem?_set_self (List.getElem?_eq_some_iff.1 hi).1) hresult
  · cases hstep with
    | callSet hkey hvalue => exact ⟨ps, hlin.spawn hcoherent rfl rfl⟩
    | callGet => exact ⟨ps, hlin.spawn hcoherent trivial rfl⟩
    | set hi hstep => exact absurd ⟨_, rfl⟩ ha
    | get hi hstep => exact absurd ⟨_, rfl⟩ ha
    | flush hflush =>
      have hevents : w.events a = [] := by cases hflush <;> rfl
      rw [hevents, List.append_nil]
      exact ⟨ps, hlin.flush hflush⟩

/-- **A run without a harmful retry is linearizable**, as a map of strings: the
calls can be put in an order, which is that of real time where one has returned
before another starts, in which they return what they did one after the other,
and leave the content there is. -/
theorem run_linearizable (hs₀ : s₀.Wf) {as : List Action}
    (halong : Along step RetryHarmless { store := s₀ } as) (hr : run step { store := s₀ } as = some w) :
    ∃ ps, Linearizes MapOp.perform s₀.content (outputs step events { store := s₀ } as) ps w.store.content := by
  have hstart : ∃ ps, Linear s₀ { store := s₀ } [] ps := ⟨[], linear_start hs₀⟩
  obtain ⟨ps, hlin⟩ := halong.history (J := fun w h => ∃ ps, w.Linear s₀ h ps)
    (fun w a w' h ⟨_, hlin⟩ hharmless hs => hlin.step hharmless hs) hr hstart
  exact ⟨ps, hlin.linearizes⟩

/-- A GET copies its value before a SET that has started earlier moves its own in. -/
def getBeforeSet : List Action :=
  [.callSet [97] [1], .callGet [97], .step 0] ++ List.replicate 8 (.step 1) ++ List.replicate 6 (.step 0)

theorem run_linearizable_getBeforeSet :
    ∃ w, run step { store := oneKey } getBeforeSet = some w ∧ w.calls.length = 2 ∧
      ∃ ps, Linearizes MapOp.perform oneKey.content (outputs step events { store := oneKey } getBeforeSet) ps
        w.store.content := by
  have hlength : (run step { store := oneKey } getBeforeSet).map (fun w => w.calls.length) = some 2 := by decide
  obtain ⟨w, hr, htwo⟩ := Option.map_eq_some_iff.1 hlength
  exact ⟨w, hr, htwo, run_linearizable (Store.set_wf Store.wf_empty [97] [0]) (by decide) hr⟩

end World

end ConfigServer
