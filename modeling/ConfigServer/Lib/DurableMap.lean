/-
A counted map that outlives the program that holds it. Its content is saved
when it has changed, and a restart comes back with the content saved last and
with all counts at 0. While every save succeeds and nothing is left unsaved
at a restart, no value is lost.
-/
import ConfigServer.Lib.CountedMap

structure DurableMap (κ ν : Type*) where
  live : CountedMap κ ν
  saved : κ → Option ν
  dirty : Bool := false

namespace DurableMap

open CountedMap

variable {κ ν : Type*}

inductive Event (κ ν : Type*)
  | op (op : Op κ ν)
  /-- A save that succeeds or fails; either way nothing is left to be saved. -/
  | save (ok : Bool)
  | restart

/-- The map before anything is saved. -/
def init : DurableMap κ ν := { live := .ofContent fun _ => none, saved := fun _ => none }

/-- The operations of a history, without the saves and restarts between them. -/
def operations (es : List (Event κ ν)) : List (Op κ ν) :=
  es.filterMap fun
    | .op op => some op
    | _ => none

/-- What is not marked as changed is saved. -/
def Clean (m : DurableMap κ ν) : Prop := m.dirty = false → m.saved = m.live.content

theorem clean_init : (init : DurableMap κ ν).Clean := fun _ => (ofContent_content _).symm

/-- Everything that is held or saved was set. -/
structure FromSets (m : DurableMap κ ν) (sets : List (κ × ν)) : Prop where
  live {key : κ} {value : ν} : m.live.content key = some value → (key, value) ∈ sets
  saved {key : κ} {value : ν} : m.saved key = some value → (key, value) ∈ sets

theorem fromSets_init : (init : DurableMap κ ν).FromSets [] := by
  refine ⟨fun h => ?_, fun h => by cases h⟩
  rw [init, ofContent_content] at h
  cases h

variable [DecidableEq κ]

def step (m : DurableMap κ ν) : Event κ ν → DurableMap κ ν
  | .op (.set key value) => { m with live := m.live.set key value, dirty := true }
  | .op (.get key) => { m with live := m.live.get key }
  | .save ok => if m.dirty then { m with saved := if ok then m.live.content else m.saved, dirty := false } else m
  | .restart => { live := .ofContent m.saved, saved := m.saved }

def run (m : DurableMap κ ν) (es : List (Event κ ν)) : DurableMap κ ν := es.foldl step m

/-- The saves succeed, and a restart finds everything saved. -/
def Careful : DurableMap κ ν → List (Event κ ν) → Prop
  | _, [] => True
  | m, e :: es => e ≠ .save false ∧ (e = .restart → m.dirty = false) ∧ Careful (m.step e) es

theorem Clean.step {m : DurableMap κ ν} (h : m.Clean) {e : Event κ ν} (he : e ≠ .save false) :
    (m.step e).Clean := by
  intro hdirty
  cases e with
  | op op =>
    cases op with
    | set key value => cases hdirty
    | get key => exact (h hdirty).trans (m.live.get_content key).symm
  | save ok =>
    cases ok with
    | false => exact absurd rfl he
    | true =>
      cases hm : m.dirty with
      | true => simp [DurableMap.step, hm]
      | false =>
        have hsame : m.step (.save true) = m := by simp [DurableMap.step, hm]
        rw [hsame]
        exact h hm
  | restart => exact (ofContent_content m.saved).symm

/-- A step changes the content as its operation does, if it has one. -/
theorem step_content {m : DurableMap κ ν} (h : m.Clean) {e : Event κ ν}
    (hrestart : e = .restart → m.dirty = false) (key : κ) :
    (m.step e).live.content key = lastValue key (m.live.content key) (operations [e]) := by
  cases e with
  | op op =>
    cases op with
    | set key' value => exact m.live.set_content key' key value
    | get key' => exact congrFun (m.live.get_content key') key
  | save ok =>
    simp only [DurableMap.step]
    split <;> rfl
  | restart =>
    have hsaved := h (hrestart rfl)
    simp only [DurableMap.step, ofContent_content, hsaved]
    rfl

theorem lastValue_append (key : κ) (value : Option ν) (ops ops' : List (Op κ ν)) :
    lastValue key value (ops ++ ops') = lastValue key (lastValue key value ops) ops' := by
  induction ops generalizing value with
  | nil => rfl
  | cons op ops ih =>
    cases op with
    | set key' value' => exact ih _
    | get key' => exact ih _

/-- Restarts with nothing to be saved are not seen: the content is that of the operations alone. -/
theorem run_content {m : DurableMap κ ν} (h : m.Clean) {es : List (Event κ ν)} (hes : m.Careful es) (key : κ) :
    (m.run es).live.content key = lastValue key (m.live.content key) (operations es) := by
  induction es generalizing m with
  | nil => rfl
  | cons e es ih =>
    obtain ⟨hsave, hrestart, hrest⟩ := hes
    have hops : operations (e :: es) = operations [e] ++ operations es := List.filterMap_append (l := [e])
    rw [hops, lastValue_append, ← step_content h hrestart]
    exact ih (h.step hsave) hrest

/-! ## What is set -/

/-- The pairs an event sets. -/
def setsOf : Event κ ν → List (κ × ν)
  | .op (.set key value) => [(key, value)]
  | .op (.get _) => []
  | .save _ => []
  | .restart => []

theorem FromSets.step {m : DurableMap κ ν} {sets : List (κ × ν)} (h : m.FromSets sets) (e : Event κ ν) :
    (m.step e).FromSets (sets ++ setsOf e) := by
  cases e with
  | op op =>
    cases op with
    | set key value =>
      refine ⟨fun {key' value'} hlive => ?_, fun hsaved => List.mem_append_left _ (h.saved hsaved)⟩
      rw [DurableMap.step, set_content] at hlive
      split at hlive
      · rename_i hkey
        cases hlive
        exact List.mem_append_right _ (hkey ▸ List.mem_singleton_self _)
      · exact List.mem_append_left _ (h.live hlive)
    | get key =>
      refine ⟨fun hlive => ?_, fun hsaved => List.mem_append_left _ (h.saved hsaved)⟩
      rw [DurableMap.step, get_content] at hlive
      exact List.mem_append_left _ (h.live hlive)
  | save ok =>
    rw [setsOf, List.append_nil, DurableMap.step]
    split
    · refine ⟨h.live, fun hsaved => ?_⟩
      cases ok with
      | true => exact h.live hsaved
      | false => exact h.saved hsaved
    · exact h
  | restart =>
    rw [setsOf, List.append_nil, DurableMap.step]
    refine ⟨fun hlive => h.saved ?_, h.saved⟩
    rwa [ofContent_content] at hlive

end DurableMap
