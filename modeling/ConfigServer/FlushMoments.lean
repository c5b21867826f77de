/-
What a flush saves while SETs go on. It may not be the content of any one
moment (see `Snapshot`). But as long as no step stores a value of another length
between the size of a value and its bytes, the file is an image, of exactly the
keys there were when the flush loaded the root, and each of them has a value it
had at some moment of the flush. So a key that no SET touches is saved as it is.
-/
import ConfigServer.Snapshot

namespace ConfigServer

open Runs

/-- The binding whose size has been written is one still to be written. -/
theorem FlushPc.unwritten_of_measured {flush : FlushPc} {pair : Binding × Nat} (h : pair ∈ flush.measured) :
    pair.1 ∈ flush.unwritten := by
  cases flush with
  | sized visited pair' n todo =>
    cases List.mem_singleton.1 h
    exact List.mem_cons_self
  | _ => exact absurd h List.not_mem_nil

namespace World

/-- The step stores no value of another length in the entry whose size the flush has written. -/
def KeepsMeasured (w : World) (a : Action) : Prop :=
  ∀ p ∈ w.assigns a, ∀ pair ∈ w.flush.measured, pair.1.2 = p.1 → p.2.length = pair.2

instance (w : World) (a : Action) : Decidable (w.KeepsMeasured a) :=
  inferInstanceAs (Decidable (∀ p ∈ w.assigns a, _))

/-- Some of the actions `as` lead from `w₀` to a state where the key has the value. -/
def Had (w₀ : World) (as : List Action) (key value : Bytes) : Prop :=
  ∃ before after w, as = before ++ after ∧ run step w₀ before = some w ∧ w.store.content key = some value

theorem Had.mono {w₀ : World} {as : List Action} {key value : Bytes} (h : Had w₀ as key value)
    (more : List Action) : Had w₀ (as ++ more) key value := by
  obtain ⟨before, after, w, rfl, hr, hvalue⟩ := h
  exact ⟨before, after ++ more, w, List.append_assoc _ _ _, hr, hvalue⟩

/-- The flush has been iterating over `m` since `w₀`: each value written is one that its key had since then. -/
structure Moments (w₀ : World) (m : Map) (w : World) (as : List Action) : Prop where
  reached : run step w₀ as = some w
  coherent : w.Coherent
  iterates : w.flush.iterates = true
  sub : Map.Sub m w.store.root.value
  measured : ∀ pair ∈ w.flush.measured, (w.store.values pair.1.2).length = pair.2
  writing : ∃ vals, w.flush.Writing vals m w.store.file ∧
    ∀ pair ∈ w.flush.written, Had w₀ as pair.1 (vals pair.2)

/-- A binding that is not yet written shares its entry with none that is. -/
theorem written_ne_unwritten {s : Store} (hwf : s.Wf) {m : Map} (hsub : Map.Sub m s.root.value) {flush : FlushPc}
    (hiterates : flush.iterates = true) (horder : m.Enumerates flush.order) {pair pair' : Binding}
    (hwritten : pair ∈ flush.written) (hunwritten : pair' ∈ flush.unwritten) : pair.2 ≠ pair'.2 := by
  have hsplit : flush.order = flush.written ++ flush.unwritten := by
    cases flush with
    | next visited todo => rfl
    | keyed visited pair todo => rfl
    | sized visited pair n todo => rfl
    | _ => cases hiterates
  have hbound {p : Binding} (hmem : p ∈ flush.order) : s.root.value.lookup p.1 = some p.2 :=
    hsub _ _ (horder.mem_iff.1 hmem)
  have hnodup := horder.nodup
  rw [hsplit] at hbound hnodup
  rw [List.map_append] at hnodup
  intro heq
  have hkey : pair.1 = pair'.1 :=
    hwf.inj (hbound (List.mem_append_left _ hwritten)) (heq ▸ hbound (List.mem_append_right _ hunwritten))
  exact List.disjoint_of_nodup_append hnodup (List.mem_map_of_mem hwritten)
    (hkey ▸ List.mem_map_of_mem hunwritten)

/-- What is written can be told with the values there are now of the entries not yet written. -/
theorem Moments.agreeing {w₀ w : World} {m : Map} {as : List Action} (h : Moments w₀ m w as) :
    ∃ vals, w.flush.Writing vals m w.store.file ∧ w.flush.Agrees vals w.store ∧
      ∀ pair ∈ w.flush.written, Had w₀ as pair.1 (vals pair.2) := by
  classical
  obtain ⟨vals, hwriting, hhad⟩ := h.writing
  have hne {pair pair' : Binding} (hwritten : pair ∈ w.flush.written) (hunwritten : pair' ∈ w.flush.unwritten) :
      pair.2 ≠ pair'.2 :=
    written_ne_unwritten h.coherent.shared h.sub h.iterates (hwriting.enumerates h.iterates) hwritten hunwritten
  let now (e : EntryPtr) : Bytes := if ∃ pair ∈ w.flush.written, pair.2 = e then vals e else w.store.values e
  have hsame {pair : Binding} (hmem : pair ∈ w.flush.written) : now pair.2 = vals pair.2 :=
    if_pos ⟨pair, hmem, rfl⟩
  have hagrees {pair : Binding} (hmem : pair ∈ w.flush.unwritten) : w.store.values pair.2 = now pair.2 := by
    refine (if_neg ?_).symm
    rintro ⟨pair', hwritten, heq⟩
    exact hne hwritten hmem heq
  refine ⟨now, hwriting.congr (fun pair => hsame) (fun pair hmem => ?_), fun pair => hagrees,
    fun pair hmem => ?_⟩
  · rw [← hagrees (FlushPc.unwritten_of_measured hmem), h.measured pair hmem]
  · rw [hsame hmem]
    exact hhad pair hmem

/-- The loop measures an entry as it is, and writes what was still to be written. -/
theorem FlushStep.records {w w' : World} {a : Action} (hstep : w.FlushStep a w') (h : w.flush.iterates = true)
    (ha : a ≠ .flushFinish) :
    (∀ pair ∈ w'.flush.measured, (w.store.values pair.1.2).length = pair.2) ∧
      ∀ pair ∈ w'.flush.written, pair ∈ w.flush.written ∨ pair ∈ w.flush.unwritten := by
  cases hstep with
  | skip hflush hdirty => simp [hflush, FlushPc.iterates] at h
  | exchange hflush hdirty => simp [hflush, FlushPc.iterates] at h
  | «open» hflush => simp [hflush, FlushPc.iterates] at h
  | load hflush horder => simp [hflush, FlushPc.iterates] at h
  | key hflush =>
    rw [hflush]
    exact ⟨fun pair hmem => absurd hmem List.not_mem_nil, fun pair hmem => .inl hmem⟩
  | size hflush =>
    rw [hflush]
    refine ⟨fun pair hmem => ?_, fun pair hmem => .inl hmem⟩
    cases List.mem_singleton.1 hmem
    rfl
  | data hflush hjunk =>
    rw [hflush]
    refine ⟨fun pair hmem => absurd hmem List.not_mem_nil, fun pair hmem => ?_⟩
    refine (List.mem_append.1 hmem).imp_right fun hmem => ?_
    exact List.mem_singleton.1 hmem ▸ List.mem_cons_self
  | finish hflush => exact absurd rfl ha

theorem Moments.step {w₀ w w' : World} {m : Map} {as : List Action} {a : Action} (h : Moments w₀ m w as)
    (hkeeps : w.KeepsMeasured a) (ha : a ≠ .flushFinish) (hs : w.step a = some w') :
    Moments w₀ m w' (as ++ [a]) := by
  have hstep := step_spec hs
  have hcoherent := hstep.coherent h.coherent
  obtain ⟨own, hg⟩ := hstep.guarantee h.coherent
  have hsub : Map.Sub m w'.store.root.value := fun key e he => hg.sub key e (h.sub key e he)
  have hone : run World.step w [a] = some w' := run_singleton hs
  have hreached : run World.step w₀ (as ++ [a]) = some w' := run_append.2 ⟨w, h.reached, hone⟩
  obtain ⟨vals, hwriting, hagrees, hhad⟩ := h.agreeing
  have horder := hwriting.enumerates h.iterates
  rcases hstep.flush_or with hflush | ⟨hsame, hfile⟩
  · have hiterates := h.iterates
    have hnext := hflush.writing (fun hopened => by simp [hopened, FlushPc.iterates] at hiterates)
      hwriting hagrees
    have hafter := hflush.iterates h.iterates ha
    have hrecords := hflush.records h.iterates ha
    have hvalues : w'.store.values = w.store.values := by
      obtain ⟨dirty, file, flush, rfl⟩ := hflush.frame
      rfl
    refine ⟨hreached, hcoherent, hafter.1, hsub, ?_, vals, hnext, fun pair hmem => ?_⟩
    · rw [hvalues]
      exact hrecords.1
    · rcases hrecords.2 pair hmem with hwritten | hunwritten
      · exact (hhad pair hwritten).mono [a]
      · -- Its bytes are those it has now.
        refine ⟨as, [a], w, rfl, h.reached, ?_⟩
        rw [← hagrees pair hunwritten, Store.content_eq]
        have hbound := h.sub _ _ (horder.mem_iff.1 (FlushPc.mem_order (.inr (.inr hunwritten))))
        exact congrArg (Option.map w.store.values) hbound
  · refine ⟨hreached, hcoherent, hsame ▸ h.iterates, hsub, fun pair hmem => ?_, vals, ?_, fun pair hmem => ?_⟩
    · rw [hsame] at hmem
      have hlt : pair.1.2 < w.store.next :=
        h.coherent.shared.lt_next (h.sub _ _ (horder.mem_iff.1 (FlushPc.mem_order (.inr (.inl ⟨_, hmem⟩)))))
      rcases hstep.values hlt with heq | ⟨p, hp, he, hvalue⟩
      · rw [heq, h.measured pair hmem]
      · rw [hvalue, hkeeps p hp pair hmem he.symm]
    · rw [hsame, hfile]
      exact hwriting
    · rw [hsame] at hmem
      exact (hhad pair hmem).mono [a]

theorem moments_load {w w' : World} {order : List Binding} (h : w.Sound)
    (hload : w.step (.flushLoad order) = some w') : Moments w' w.store.root.value w' [] := by
  obtain ⟨hcoherent, hiterates, hwriting⟩ := beforeMoment_load h hload
  have hroot : w'.store.root = w.store.root ∧ w'.flush = .next [] order := by
    cases step_spec hload with
    | flush hflush =>
      cases hflush with
      | load hflush horder => exact ⟨rfl, rfl⟩
  rw [hroot.1] at hwriting
  refine ⟨rfl, hcoherent, hiterates, ?_, ?_, _, hwriting, ?_⟩
  · rw [hroot.1]
    exact fun key e he => he
  · rw [hroot.2]
    exact fun pair hmem => absurd hmem List.not_mem_nil
  · rw [hroot.2]
    exact fun pair hmem => absurd hmem List.not_mem_nil

/-- **A flush saves every key with a value of its own.** If no step stores a value of another length in
the entry whose size has just been written, the file is an image, of exactly the
keys there were when the root was loaded, and each has a value in it that it had
at some moment between then and the end of the flush. -/
theorem run_moments {loader : Loader} {file₀ : Option Bytes} {s₀ : Store}
    (hopen : Store.openFile loader file₀ = .ok s₀) {as bs : List Action} {order : List Binding}
    {w₀ w₁ w₂ w₃ : World} (hstart : run step { store := s₀ } as = some w₀)
    (hload : w₀.step (.flushLoad order) = some w₁) (hflush : run step w₁ bs = some w₂)
    (hfinish : w₂.step .flushFinish = some w₃) (hfirst : .flushFinish ∉ bs)
    (hkeeps : Along step KeepsMeasured w₁ bs) :
    ∃ content, Store.SavedAs w₃.store.file content ∧
      (∀ key, (content key).isSome = (w₀.store.content key).isSome) ∧
      ∀ key value, content key = some value → Had w₁ bs key value := by
  have hsound := run_sound (sound_start hopen) hstart
  have hne (a : Action) (ha : a ∈ bs) : a ≠ .flushFinish := fun heq => hfirst (heq ▸ ha)
  have hnot : Along step (fun _ a => a ≠ .flushFinish) w₁ bs := along_of_forall hne w₁
  have hend : Moments w₁ w₀.store.root.value w₂ bs :=
    (hkeeps.and hnot).trace (J := fun w as => Moments w₁ w₀.store.root.value w as)
      (fun _ _ _ _ h hP hs => h.step hP.1 hP.2 hs) hflush (moments_load hsound hload)
  obtain ⟨vals, hwriting, hhad⟩ := hend.writing
  cases step_spec hfinish with
  | flush hlast =>
    cases hlast with
    | @finish visited hdone =>
      rw [hdone] at hwriting hhad
      refine ⟨_, hwriting.saved, fun key => ?_, fun key value hvalue => ?_⟩
      · rw [Store.content_eq, Option.isSome_map, Option.isSome_map]
      · obtain ⟨e, he, rfl⟩ := Option.map_eq_some_iff.1 hvalue
        refine hhad ⟨key, e⟩ ?_
        have hmem := hwriting.1.mem_iff.2 he
        rwa [List.append_nil] at hmem

/-- Two keys are set. -/
def setTwo : List Action := setOne ++ .callSet [98] [1] :: List.replicate 7 (.step 1)

/-- Both are set again, the first one after it has been written and the second one before: the file has
the old value of the first and the new one of the second. -/
def setBothAgain : List Action :=
  [.flushKey, .flushSize, .flushData [], .callSet [97] [2], .step 2, .step 2, .callSet [98] [2],
    .step 3, .step 3,
    .flushKey, .flushSize, .flushData []]

theorem run_moments_setBothAgain :
    ∃ (w₀ w₁ w₃ : World) (content : Bytes → Option Bytes), 
      w₃.store.file = some (image [([97], [1]), ([98], [2])]) ∧
      Store.SavedAs w₃.store.file content ∧ (∀ key, (content key).isSome = (w₀.store.content key).isSome) ∧
      ∀ key value, content key = some value → Had w₁ setBothAgain key value := by
  have hrun : ((run step { store := { root := ⟨1, ∅⟩ } } (setTwo ++ [.flushExchange, .flushOpen])).any fun w₀ =>
      (w₀.step (.flushLoad [⟨[97], 0⟩, ⟨[98], 1⟩])).any fun w₁ => Along step KeepsMeasured w₁ setBothAgain &&
        (run step w₁ setBothAgain).any fun w₂ => (w₂.step .flushFinish).any fun w₃ =>
          w₃.store.file = some (image [([97], [1]), ([98], [2])])) = true := by decide
  simp only [Option.any_eq_true, Bool.and_eq_true, decide_eq_true_eq] at hrun
  obtain ⟨w₀, hstart, w₁, hload, hkeeps, w₂, hflush, w₃, hfinish, hfile⟩ := hrun
  have hopen : Store.openFile {} none = .ok { root := ⟨1, ∅⟩ } := rfl
  obtain ⟨content, hsaved⟩ := run_moments hopen hstart hload hflush hfinish (by decide) hkeeps
  exact ⟨w₀, w₁, w₃, content, hfile, hsaved⟩

end World

end ConfigServer
