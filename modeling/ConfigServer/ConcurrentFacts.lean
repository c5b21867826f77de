/-
What holds of a shared store in every interleaving. Each call holds at most
one entry nobody else can reach: one its update function has made and not yet
published. Every other entry a call works on is bound in the root, since the
root only grows: every version a call still holds is contained in it, with
the same entries. A call's step is seen by the others as a `Guarantee`, and
what holds of a call survives every guarantee of another.
-/
import ConfigServer.Concurrent

namespace ConfigServer

/-! ## The steps of a call -/

/-- A step of `set`, by the place it starts from. -/
inductive SetCall.Step (s : Store) : SetCall → Store → SetCall → Prop
  | load {key given value : Bytes} :
    Step s ⟨key, given, value, .entered⟩ s ⟨key, given, value, .loaded s.root⟩
  | assignFound {key given value : Bytes} {oldv : Box Map} {e : EntryPtr}
    (hfound : oldv.value.lookup key = some e) :
    Step s ⟨key, given, value, .loaded oldv⟩ (s.assignValue e value) ⟨key, given, [], .assigned oldv e⟩
  | assignNew {key given value : Bytes} {oldv : Box Map} (habsent : oldv.value.lookup key = none)
    (hroom : s.next + 1 < SizeT.modulus) :
    Step s ⟨key, given, value, .loaded oldv⟩ (s.makeShared.2.assignValue s.next value)
      ⟨key, given, [], .assigned oldv s.next⟩
  | count {key given value : Bytes} {oldv : Box Map} {e : EntryPtr} :
    Step s ⟨key, given, value, .assigned oldv e⟩ (s.countWrite e) ⟨key, given, value, .applied oldv e⟩
  | publish {key given value : Bytes} {oldv : Box Map} {e : EntryPtr} (hsame : oldv.impl = s.root.impl) :
    Step s ⟨key, given, value, .applied oldv e⟩ { s with root := ⟨s.root.impl + 1, oldv.value.insert key e⟩ }
      ⟨key, given, value, .published⟩
  | retry {key given value : Bytes} {oldv : Box Map} {e : EntryPtr} (hchanged : oldv.impl ≠ s.root.impl) :
    Step s ⟨key, given, value, .applied oldv e⟩ s ⟨key, given, value, .entered⟩
  | total {key given value : Bytes} :
    Step s ⟨key, given, value, .published⟩ { s with stats := s.stats.addSetTotal }
      ⟨key, given, value, .countedTotal⟩
  | window {key given value : Bytes} :
    Step s ⟨key, given, value, .countedTotal⟩ { s with stats := s.stats.addSetWindow }
      ⟨key, given, value, .countedWindow⟩
  | dirty {key given value : Bytes} :
    Step s ⟨key, given, value, .countedWindow⟩ { s with dirty := true } ⟨key, given, value, .done⟩

theorem SetCall.step_spec {s s' : Store} {c c' : SetCall} (h : c.step s = some (s', c')) :
    SetCall.Step s c s' c' := by
  obtain ⟨key, given, value, pc⟩ := c
  cases pc with
  | entered =>
    cases h
    exact .load
  | loaded oldv =>
    cases hfound : oldv.value.lookup key with
    | none =>
      simp only [step, Store.findOrCreate_absent hfound, Store.makeShared] at h
      split at h
      · next hroom =>
        cases h
        exact .assignNew hfound hroom
      · cases h
    | some e =>
      simp only [step, Store.findOrCreate_found hfound] at h
      split at h
      · cases h
        exact .assignFound hfound
      · cases h
  | assigned oldv e =>
    cases h
    exact .count
  | applied oldv e =>
    simp only [step] at h
    cases hpublish : s.root.publish oldv (oldv.value.insert key e) with
    | none =>
      rw [hpublish] at h
      cases h
      exact .retry (Box.publish_eq_none.1 hpublish)
    | some root =>
      rw [hpublish] at h
      cases h
      obtain ⟨hsame, rfl⟩ := Box.publish_eq_some.1 hpublish
      exact .publish hsame
  | published =>
    cases h
    exact .total
  | countedTotal =>
    cases h
    exact .window
  | countedWindow =>
    cases h
    exact .dirty
  | done => cases h

/-- The entry a GET has found. -/
def GetPc.entry? : GetPc → Option EntryPtr
  | .entered => none
  | .loaded _ => none
  | .absent => none
  | .found e => some e
  | .incremented e => some e
  | .countedTotal e => some e
  | .countedWindow e => some e
  | .readReads e _ => some e
  | .readWrites e _ _ => some e
  | .answered e _ => some e

/-- The GET has found its entry and is still to increment its reads. -/
def GetPc.pending : GetPc → Bool
  | .found _ => true
  | _ => false

/-- A step of a GET. After the increment it only reads, or counts in the statistics. -/
inductive GetCall.Step (s : Store) : GetCall → Store → GetCall → Prop
  | load {key : Bytes} : Step s ⟨key, .entered⟩ s ⟨key, .loaded s.root⟩
  | absent {key : Bytes} {snap : Box Map} (habsent : snap.value.lookup key = none) :
    Step s ⟨key, .loaded snap⟩ s ⟨key, .absent⟩
  | find {key : Bytes} {snap : Box Map} {e : EntryPtr} (hfound : snap.value.lookup key = some e) :
    Step s ⟨key, .loaded snap⟩ s ⟨key, .found e⟩
  | count {key : Bytes} {e : EntryPtr} : Step s ⟨key, .found e⟩ (s.countRead e) ⟨key, .incremented e⟩
  | rest {key : Bytes} {e : EntryPtr} {pc pc' : GetPc} {stats : Counters} (hentry : pc.entry? = some e)
    (hpending : pc.pending = false) (hentry' : pc'.entry? = some e) (hpending' : pc'.pending = false) :
    Step s ⟨key, pc⟩ { s with stats } ⟨key, pc'⟩

theorem GetCall.step_spec {s s' : Store} {c c' : GetCall} (h : c.step s = some (s', c')) :
    GetCall.Step s c s' c' := by
  obtain ⟨key, pc⟩ := c
  cases pc with
  | entered =>
    cases h
    exact .load
  | loaded snap =>
    simp only [step] at h
    split at h
    · next habsent =>
      cases h
      exact .absent habsent
    · next e hfound =>
      cases h
      exact .find hfound
  | absent => cases h
  | found e =>
    cases h
    exact .count
  | incremented e =>
    cases h
    exact .rest rfl rfl rfl rfl
  | countedTotal e =>
    cases h
    exact .rest rfl rfl rfl rfl
  | countedWindow e =>
    cases h
    exact @GetCall.Step.rest s key e _ _ s.stats rfl rfl rfl rfl
  | readReads e reads =>
    cases h
    exact @GetCall.Step.rest s key e _ _ s.stats rfl rfl rfl rfl
  | readWrites e reads writes =>
    cases h
    exact @GetCall.Step.rest s key e _ _ s.stats rfl rfl rfl rfl
  | answered e answer => cases h

/-! ## What the calls rely on -/

/-- Every binding of `m` is one of `m'`. -/
def Map.Sub (m m' : Map) : Prop := ∀ key e, m.lookup key = some e → m'.lookup key = some e

instance : Std.Refl Map.Sub := ⟨fun _ _ _ h => h⟩

instance : IsTrans Map Map.Sub := ⟨fun _ _ _ h h' key e he => h' key e (h key e he)⟩

/-- `e` is reachable from the root. -/
def Store.Bound (s : Store) (e : EntryPtr) : Prop := ∃ key, s.root.value.lookup key = some e

/-- The entry that a call of `set` has made and not published. -/
def Call.owned : Call → Option EntryPtr
  | .set ⟨key, _, _, .assigned oldv e⟩ => if oldv.value.lookup key = none then some e else none
  | .set ⟨key, _, _, .applied oldv e⟩ => if oldv.value.lookup key = none then some e else none
  | _ => none

/-- What the step of a call, or of the flush, may do to the store: the map only
grows, by the entry the call owned before; and of the entries made before, only
that one and those in the root change. -/
structure Guarantee (own : Option EntryPtr) (s s' : Store) : Prop where
  next_le : s.next ≤ s'.next
  held {oldv : Box Map} : Box.Held Map.Sub s.root oldv → Box.Held Map.Sub s'.root oldv
  sub : Map.Sub s.root.value s'.root.value
  bound {e : EntryPtr} : s'.Bound e → s.Bound e ∨ own = some e
  heap {e : EntryPtr} : e < s.next → own ≠ some e → ¬ s.Bound e → s'.heap e = s.heap e

theorem Guarantee.of_root {own : Option EntryPtr} {s s' : Store} (hroot : s'.root = s.root)
    (hnext : s.next ≤ s'.next)
    (hheap : ∀ {e}, e < s.next → own ≠ some e → ¬ s.Bound e → s'.heap e = s.heap e) : Guarantee own s s' where
  next_le := hnext
  held h := hroot ▸ h
  sub := by
    rw [hroot]
    exact Std.Refl.refl s.root.value
  bound h := .inl (by rwa [Store.Bound, hroot] at h)
  heap := hheap

theorem Guarantee.refl (own : Option EntryPtr) (s : Store) : Guarantee own s s :=
  .of_root rfl (Nat.le_refl _) fun _ _ _ => rfl

/-- An entry the update function works on: the one bound in the version loaded,
or one that is the call's own, with no reads and `writes` writes. -/
def Target (s : Store) (oldv : Box Map) (key : Bytes) (writes : UInt64) (e : EntryPtr) : Prop :=
  oldv.value.lookup key = some e ∨
    oldv.value.lookup key = none ∧ e < s.next ∧ ¬ s.Bound e ∧ (s.heap e).reads = 0 ∧
      (s.heap e).writes = writes

def SetCall.Ok (s : Store) (c : SetCall) : Prop :=
  match c.pc with
  | .entered => True
  | .loaded oldv => Box.Held Map.Sub s.root oldv
  | .assigned oldv e => Box.Held Map.Sub s.root oldv ∧ Target s oldv c.key 0 e
  | .applied oldv e => Box.Held Map.Sub s.root oldv ∧ Target s oldv c.key 1 e
  | .published => ∃ e, s.root.value.lookup c.key = some e
  | .countedTotal => ∃ e, s.root.value.lookup c.key = some e
  | .countedWindow => ∃ e, s.root.value.lookup c.key = some e
  | .done => ∃ e, s.root.value.lookup c.key = some e

def GetCall.Ok (s : Store) (c : GetCall) : Prop :=
  match c.pc with
  | .loaded snap => Box.Held Map.Sub s.root snap
  | pc => ∀ e, pc.entry? = some e → s.root.value.lookup c.key = some e

def Call.Ok (s : Store) : Call → Prop
  | .set c => c.Ok s
  | .get c => c.Ok s

/-- No two calls own the same entry. -/
def Call.Apart (c d : Call) : Prop := ∀ e, c.owned = some e → d.owned ≠ some e

theorem Call.Apart.symm {c d : Call} (h : Apart c d) : Apart d c := fun e hd hc => h e hc hd

theorem Target.stable {own : Option EntryPtr} {s s' : Store} (hg : Guarantee own s s') {oldv : Box Map}
    {key : Bytes} {writes : UInt64} {e : EntryPtr} (h : Target s oldv key writes e)
    (hown : oldv.value.lookup key = none → own ≠ some e) : Target s' oldv key writes e := by
  rcases h with hfound | ⟨habsent, hlt, hbound, hreads, hwrites⟩
  · exact .inl hfound
  · have hne := hown habsent
    have hheap := hg.heap hlt hne hbound
    refine .inr ⟨habsent, Nat.lt_of_lt_of_le hlt hg.next_le, fun hb => ?_, ?_, ?_⟩
    · exact (hg.bound hb).elim hbound hne
    · rw [hheap, hreads]
    · rw [hheap, hwrites]

/-- A call's own entry has been made. -/
theorem Call.Ok.owned_lt {s : Store} {c : Call} (h : c.Ok s) {e : EntryPtr} (he : c.owned = some e) :
    e < s.next := by
  have hlt {key : Bytes} {oldv : Box Map} {writes : UInt64} {e₀ : EntryPtr} (ht : Target s oldv key writes e₀)
      (he : (if oldv.value.lookup key = none then some e₀ else none) = some e) : e < s.next := by
    split at he
    · next habsent =>
      rw [Option.some.injEq] at he
      rcases ht with hfound | ⟨-, hlt, -⟩
      · exact nomatch hfound.symm.trans habsent
      · exact he ▸ hlt
    · cases he
  unfold owned at he
  split at he
  · exact hlt h.2 he
  · exact hlt h.2 he
  · cases he

/-- **What holds of a call survives the step of another.** -/
theorem Call.Ok.stable {own : Option EntryPtr} {s s' : Store} (hg : Guarantee own s s') {d : Call}
    (h : d.Ok s) (hown : ∀ e, own = some e → d.owned ≠ some e) : d.Ok s' := by
  cases d with
  | set c =>
    obtain ⟨key, given, value, pc⟩ := c
    cases pc with
    | entered => trivial
    | loaded oldv => exact hg.held h
    | assigned oldv e =>
      refine ⟨hg.held h.1, h.2.stable hg fun habsent heq => hown e heq ?_⟩
      simp [owned, habsent]
    | applied oldv e =>
      refine ⟨hg.held h.1, h.2.stable hg fun habsent heq => hown e heq ?_⟩
      simp [owned, habsent]
    | published => exact h.imp fun e he => hg.sub key e he
    | countedTotal => exact h.imp fun e he => hg.sub key e he
    | countedWindow => exact h.imp fun e he => hg.sub key e he
    | done => exact h.imp fun e he => hg.sub key e he
  | get c =>
    obtain ⟨key, pc⟩ := c
    cases pc with
    | loaded snap => exact hg.held h
    | entered => exact fun e he => nomatch he
    | absent => exact fun e he => nomatch he
    | found e => exact fun e he => hg.sub key e (h e he)
    | incremented e => exact fun e he => hg.sub key e (h e he)
    | countedTotal e => exact fun e he => hg.sub key e (h e he)
    | countedWindow e => exact fun e he => hg.sub key e (h e he)
    | readReads e reads => exact fun e he => hg.sub key e (h e he)
    | readWrites e reads writes => exact fun e he => hg.sub key e (h e he)
    | answered e answer => exact fun e he => hg.sub key e (h e he)

/-! ## What a step does -/

/-- The entry an update function works on is bound in the root, or the call's own. -/
theorem Target.bound_or_owned {s : Store} {oldv : Box Map} {key : Bytes} {writes : UInt64} {e : EntryPtr}
    (hheld : Box.Held Map.Sub s.root oldv) (h : Target s oldv key writes e) :
    s.root.value.lookup key = some e ∨ oldv.value.lookup key = none := by
  rcases h with hfound | ⟨habsent, -⟩
  · exact .inl (hheld.rel key e hfound)
  · exact .inr habsent

theorem Target.lt_next {s : Store} (hwf : s.Wf) {oldv : Box Map} {key : Bytes} {writes : UInt64}
    {e : EntryPtr} (hheld : Box.Held Map.Sub s.root oldv) (h : Target s oldv key writes e) : e < s.next := by
  rcases h with hfound | ⟨-, hlt, -⟩
  · exact hwf.lt_next (hheld.rel key e hfound)
  · exact hlt

/-- A change of the entry an update function works on. -/
theorem Guarantee.modify {s : Store} {own : Option EntryPtr} {e : EntryPtr} (f : Entry → Entry)
    (h : s.Bound e ∨ own = some e) : Guarantee own s (s.modify e f) := by
  refine .of_root rfl (Nat.le_refl _) fun {e'} _ hown hbound => Store.modify_heap_of_ne s e f ?_
  rintro rfl
  exact h.elim hbound hown

/-- Publishing binds the key to the entry the update function worked on. -/
theorem publish_binds {s : Store} (hwf : s.Wf) {oldv : Box Map} {key : Bytes} {writes : UInt64} {e : EntryPtr}
    (hheld : Box.Held Map.Sub s.root oldv) (htarget : Target s oldv key writes e)
    (hsame : oldv.impl = s.root.impl) :
    s.Binds { s with root := ⟨s.root.impl + 1, oldv.value.insert key e⟩ } key e where
  root := by rw [hheld.same hsame]
  next_le := Nat.le_refl _
  lt_next := htarget.lt_next hwf hheld
  unique {key'} hkey hbound := by
    rcases htarget with hfound | ⟨-, -, hnot, -⟩
    · exact hkey (hwf.inj hbound (hheld.rel key e hfound))
    · exact hnot ⟨key', hbound⟩
  heap _ := rfl

theorem publish_guarantee {s : Store} (hwf : s.Wf) {oldv : Box Map} {key given value : Bytes} {e : EntryPtr}
    (hheld : Box.Held Map.Sub s.root oldv) (htarget : Target s oldv key 1 e)
    (hsame : oldv.impl = s.root.impl) :
    Guarantee (Call.set ⟨key, given, value, .applied oldv e⟩).owned s
      { s with root := ⟨s.root.impl + 1, oldv.value.insert key e⟩ } := by
  have hb := publish_binds hwf hheld htarget hsame
  have hsub : Map.Sub s.root.value (oldv.value.insert key e) := by
    intro key' e' he'
    by_cases hkey : key' = key
    · subst hkey
      rcases htarget with hfound | ⟨habsent, -⟩
      · exact hb.lookup_self.trans ((hheld.rel _ e hfound).symm.trans he')
      · rw [hheld.same hsame] at habsent
        exact nomatch habsent.symm.trans he'
    · exact (hb.lookup_of_ne hkey).trans he'
  refine ⟨Nat.le_refl _, fun h => h.publish hsub, hsub, ?_, fun _ _ _ => rfl⟩
  rintro e' ⟨key', he'⟩
  by_cases hkey : key' = key
  · subst hkey
    have he : e = e' := Option.some.inj (hb.lookup_self.symm.trans he')
    subst he
    rcases htarget with hfound | ⟨habsent, -⟩
    · exact .inl ⟨key', hheld.rel _ e hfound⟩
    · exact .inr (by simp [Call.owned, habsent])
  · exact .inl ⟨key', (hb.lookup_of_ne hkey).symm.trans he'⟩

namespace SetCall

variable {s s' : Store} {c c' : SetCall}

theorem Step.guarantee (hwf : s.Wf) (hok : c.Ok s) (h : Step s c s' c') :
    Guarantee (Call.set c).owned s s' := by
  cases h with
  | load => exact .refl _ s
  | assignFound hfound => exact .modify _ (.inl ⟨_, hok.rel _ _ hfound⟩)
  | assignNew habsent hroom =>
    exact .of_root rfl (Nat.le_succ _) fun hlt _ _ => Store.makeShared_heap_of_ne _ (Nat.ne_of_lt hlt)
  | count =>
    refine .modify _ ((hok.2.bound_or_owned hok.1).imp (fun h => ⟨_, h⟩) fun habsent => ?_)
    simp [Call.owned, habsent]
  | publish hsame => exact publish_guarantee hwf hok.1 hok.2 hsame
  | retry hchanged => exact .refl _ s
  | total => exact .of_root rfl (Nat.le_refl _) fun _ _ _ => rfl
  | window => exact .of_root rfl (Nat.le_refl _) fun _ _ _ => rfl
  | dirty => exact .of_root rfl (Nat.le_refl _) fun _ _ _ => rfl

theorem Step.wf (hwf : s.Wf) (hok : c.Ok s) (h : Step s c s' c') : s'.Wf := by
  cases h with
  | load => exact hwf
  | assignFound hfound => exact ⟨hwf.lt_next, hwf.inj⟩
  | assignNew habsent hroom => exact ⟨fun h => Nat.lt_succ_of_lt (hwf.lt_next h), hwf.inj⟩
  | count => exact ⟨hwf.lt_next, hwf.inj⟩
  | publish hsame => exact (publish_binds hwf hok.1 hok.2 hsame).wf hwf
  | retry hchanged => exact hwf
  | total => exact ⟨hwf.lt_next, hwf.inj⟩
  | window => exact ⟨hwf.lt_next, hwf.inj⟩
  | dirty => exact ⟨hwf.lt_next, hwf.inj⟩

theorem Step.ok (hwf : s.Wf) (hok : c.Ok s) (h : Step s c s' c') : c'.Ok s' := by
  cases h with
  | load => exact Box.Held.refl _
  | assignFound hfound => exact ⟨hok, .inl hfound⟩
  | assignNew habsent hroom =>
    refine ⟨hok, .inr ⟨habsent, Nat.lt_succ_self _, ?_, ?_, ?_⟩⟩
    · rintro ⟨key', hbound⟩
      exact Nat.lt_irrefl _ (hwf.lt_next hbound)
    · simp [Store.assignValue, Store.makeShared]
    · simp [Store.assignValue, Store.makeShared]
  | @count key given value oldv e =>
    refine ⟨hok.1, hok.2.imp_right ?_⟩
    rintro ⟨habsent, hlt, hbound, hreads, hwrites⟩
    refine ⟨habsent, hlt, hbound, ?_, ?_⟩
    · simp [Store.countWrite, hreads]
    · simp [Store.countWrite, hwrites]
  | publish hsame => exact ⟨_, (publish_binds hwf hok.1 hok.2 hsame).lookup_self⟩
  | retry hchanged => trivial
  | total => exact hok
  | window => exact hok
  | dirty => exact hok

/-- The only entry a call comes to own is one it makes. -/
theorem Step.owned (h : Step s c s' c') {e : EntryPtr} (he : (Call.set c').owned = some e) :
    (Call.set c).owned = some e ∨ e = s.next := by
  cases h with
  | assignFound hfound => simp [Call.owned, hfound] at he
  | assignNew habsent hroom =>
    simp only [Call.owned, habsent, if_true, Option.some.injEq] at he
    exact .inr he.symm
  | count => exact .inl he
  | load => cases he
  | publish hsame => cases he
  | retry hchanged => cases he
  | total => cases he
  | window => cases he
  | dirty => cases he

end SetCall

namespace GetCall

variable {s s' : Store} {c c' : GetCall}

theorem Step.guarantee (hok : c.Ok s) (h : Step s c s' c') : Guarantee (Call.get c).owned s s' := by
  cases h with
  | load => exact .refl _ s
  | absent habsent => exact .refl _ s
  | find hfound => exact .refl _ s
  | count => exact .modify _ (.inl ⟨_, hok _ rfl⟩)
  | rest hentry hpending hentry' hpending' => exact .of_root rfl (Nat.le_refl _) fun _ _ _ => rfl

theorem Step.wf (hwf : s.Wf) (h : Step s c s' c') : s'.Wf := by
  cases h with
  | load => exact hwf
  | absent habsent => exact hwf
  | find hfound => exact hwf
  | count => exact ⟨hwf.lt_next, hwf.inj⟩
  | rest hentry hpending hentry' hpending' => exact ⟨hwf.lt_next, hwf.inj⟩

theorem Ok.of_entry {pc : GetPc} {key : Bytes}
    (h : ∀ e, pc.entry? = some e → s.root.value.lookup key = some e)
    (hloaded : ∀ snap, pc ≠ .loaded snap) : Ok s ⟨key, pc⟩ := by
  cases pc with
  | loaded snap => exact absurd rfl (hloaded snap)
  | _ => exact h

theorem Ok.entry {pc : GetPc} {key : Bytes} (h : Ok s ⟨key, pc⟩) {e : EntryPtr} (he : pc.entry? = some e) :
    s.root.value.lookup key = some e := by
  cases pc with
  | loaded snap => cases he
  | _ => exact h e he

theorem Step.ok (hok : c.Ok s) (h : Step s c s' c') : c'.Ok s' := by
  cases h with
  | load => exact Box.Held.refl _
  | absent habsent => exact fun e he => nomatch he
  | find hfound => exact fun e he => Option.some.inj he ▸ hok.rel _ _ hfound
  | count => exact hok
  | rest hentry hpending hentry' hpending' =>
    refine Ok.of_entry (fun e he => ?_) fun snap hpc => ?_
    · rw [hentry', Option.some.injEq] at he
      exact he ▸ hok.entry hentry
    · rw [hpc] at hentry'
      cases hentry'

theorem Step.root (h : Step s c s' c') : s'.root = s.root := by cases h <;> rfl

/-- It changes neither the value nor the writes of an entry, and makes none. -/
theorem Step.entry (h : Step s c s' c') (e : EntryPtr) :
    (s'.heap e).value = (s.heap e).value ∧ (s'.heap e).writes = (s.heap e).writes ∧ s'.next = s.next := by
  cases h with
  | @count key e' =>
    by_cases heq : e = e'
    · subst heq
      simp [Store.countRead, Store.modify]
    · have hheap : (s.countRead e').heap e = s.heap e := Store.modify_heap_of_ne s e' _ heq
      rw [hheap]
      exact ⟨rfl, rfl, rfl⟩
  | _ => exact ⟨rfl, rfl, rfl⟩

end GetCall

/-! ## The steps of the world -/

/-- The step of a GET leaves the calls of `set` as they are. -/
theorem mem_set_get {calls : List Call} {i : Nat} {c c' : GetCall} (hi : calls[i]? = some (.get c))
    {d : SetCall} :
    .set d ∈ calls.set i (.get c') ↔ .set d ∈ calls := by
  refine ⟨fun hd => (List.mem_or_eq_of_mem_set hd).elim id (fun heq => nomatch heq), fun hd => ?_⟩
  obtain ⟨j, hj⟩ := List.mem_iff_getElem?.1 hd
  have hij : i ≠ j := by
    rintro rfl
    exact nomatch hi.symm.trans hj
  exact List.mem_of_getElem? ((List.getElem?_set_ne hij).trans hj)

namespace World

/-- A step of the flush. -/
inductive FlushStep (w : World) : Action → World → Prop
  | skip (hflush : w.flush = .idle) (hdirty : w.store.dirty = false) : FlushStep w .flushExchange w
  | exchange (hflush : w.flush = .idle) (hdirty : w.store.dirty = true) :
    FlushStep w .flushExchange { w with store := { w.store with dirty := false }, flush := .exchanged }
  | open (hflush : w.flush = .exchanged) :
    FlushStep w .flushOpen { w with store := { w.store with file := some [] }, flush := .opened }
  | load {order : List Binding} (hflush : w.flush = .opened) (horder : w.store.root.value.Enumerates order) :
    FlushStep w (.flushLoad order)
      { w.write (LittleEndian.leBytes 8 w.store.root.value.size) with flush := .next [] order }
  | key {visited todo : List Binding} {pair : Binding} (hflush : w.flush = .next visited (pair :: todo)) :
    FlushStep w .flushKey { w with flush := .keyed visited pair todo }
  | size {visited todo : List Binding} {pair : Binding} (hflush : w.flush = .keyed visited pair todo) :
    FlushStep w .flushSize
      { w.write (LittleEndian.leBytes 8 pair.1.length ++
          (pair.1 ++ LittleEndian.leBytes 8 (w.store.heap pair.2).value.length)) with
        flush := .sized visited pair (w.store.heap pair.2).value.length todo }
  | data {visited todo : List Binding} {pair : Binding} {n : Nat} {junk : Bytes}
    (hflush : w.flush = .sized visited pair n todo)
    (hjunk : junk.length = n - (w.store.heap pair.2).value.length) :
    FlushStep w (.flushData junk)
      { w.write ((w.store.heap pair.2).value.take n ++ junk) with flush := .next (visited ++ [pair]) todo }
  | finish {visited : List Binding} (hflush : w.flush = .next visited []) :
    FlushStep w .flushFinish { w with flush := .idle }

/-- A step of the world: a call starts, a call steps, or the flush does. -/
inductive Step (w : World) : Action → World → Prop
  | callSet {key value : Bytes} (hkey : key.length < SizeT.modulus) (hvalue : value.length < SizeT.modulus) :
    Step w (.callSet key value) { w with calls := w.calls ++ [.set ⟨key, value, value, .entered⟩] }
  | callGet {key : Bytes} : Step w (.callGet key) { w with calls := w.calls ++ [.get ⟨key, .entered⟩] }
  | set {i : Nat} {c c' : SetCall} {s : Store} (hi : w.calls[i]? = some (.set c))
    (hstep : SetCall.Step w.store c s c') :
    Step w (.step i) { w with store := s, calls := w.calls.set i (.set c') }
  | get {i : Nat} {c c' : GetCall} {s : Store} (hi : w.calls[i]? = some (.get c))
    (hstep : GetCall.Step w.store c s c') :
    Step w (.step i) { w with store := s, calls := w.calls.set i (.get c') }
  | flush {a : Action} {w' : World} (h : FlushStep w a w') : Step w a w'

theorem step_spec {w w' : World} {a : Action} (h : w.step a = some w') : Step w a w' := by
  cases a with
  | callSet key value =>
    simp only [step] at h
    split at h
    · next hlen =>
      cases h
      exact .callSet hlen.1 hlen.2
    · cases h
  | callGet key =>
    cases h
    exact .callGet
  | step i =>
    simp only [step] at h
    split at h
    · cases h
    · next call hi =>
      obtain ⟨⟨s, call'⟩, hcall, rfl⟩ := Option.map_eq_some_iff.1 h
      cases call with
      | set c =>
        obtain ⟨⟨s', c'⟩, hc, heq⟩ := Option.map_eq_some_iff.1 hcall
        cases heq
        exact .set hi (SetCall.step_spec hc)
      | get c =>
        obtain ⟨⟨s', c'⟩, hc, heq⟩ := Option.map_eq_some_iff.1 hcall
        cases heq
        exact .get hi (GetCall.step_spec hc)
  | flushExchange =>
    simp only [step] at h
    split at h
    · next hflush =>
      split at h
      · next hdirty =>
        cases h
        exact .flush (.exchange hflush hdirty)
      · next hclean =>
        cases h
        exact .flush (.skip hflush (Bool.eq_false_iff.2 hclean))
    · cases h
  | flushOpen =>
    simp only [step] at h
    split at h
    · next hflush =>
      cases h
      exact .flush (.open hflush)
    · cases h
  | flushLoad order =>
    simp only [step] at h
    split at h
    · next hflush =>
      split at h
      · next horder =>
        cases h
        exact .flush (.load hflush horder)
      · cases h
    · cases h
  | flushKey =>
    simp only [step] at h
    split at h
    · next visited pair todo hflush =>
      cases h
      exact .flush (.key hflush)
    · cases h
  | flushSize =>
    simp only [step] at h
    split at h
    · next visited pair todo hflush =>
      cases h
      exact .flush (.size hflush)
    · cases h
  | flushData junk =>
    simp only [step] at h
    split at h
    · next visited pair n todo hflush =>
      split at h
      · next hjunk =>
        cases h
        exact .flush (.data hflush hjunk)
      · cases h
    · cases h
  | flushFinish =>
    simp only [step] at h
    split at h
    · next visited hflush =>
      cases h
      exact .flush (.finish hflush)
    · cases h

theorem step_call {w w' : World} {i : Nat} (h : w.step (.step i) = some w') :
    ∃ call s call', w.calls[i]? = some call ∧ call.step w.store = some (s, call') ∧
      w' = { w with store := s, calls := w.calls.set i call' } := by
  simp only [step] at h
  split at h
  · cases h
  · next call hi =>
    obtain ⟨⟨s, call'⟩, hcall, rfl⟩ := Option.map_eq_some_iff.1 h
    exact ⟨call, s, call', hi, hcall, rfl⟩

theorem step_get {w w' : World} {i : Nat} {c : GetCall} (hi : w.calls[i]? = some (.get c))
    (h : w.step (.step i) = some w') :
    ∃ s c', c.step w.store = some (s, c') ∧
      w' = { w with store := s, calls := w.calls.set i (.get c') } := by
  obtain ⟨call, s, call', hi', hcall, rfl⟩ := step_call h
  cases hi.symm.trans hi'
  obtain ⟨⟨s', c'⟩, hc, heq⟩ := Option.map_eq_some_iff.1 hcall
  cases heq
  exact ⟨s, c', hc, rfl⟩

/-- The flush changes the flag, the file and its own place only. -/
theorem FlushStep.frame {w w' : World} {a : Action} (h : w.FlushStep a w') :
    ∃ dirty file flush, w' = { w with store := { w.store with dirty, file }, flush } := by
  cases h with
  | skip hflush hdirty => exact ⟨w.store.dirty, w.store.file, w.flush, rfl⟩
  | exchange hflush hdirty => exact ⟨false, w.store.file, .exchanged, rfl⟩
  | «open» hflush => exact ⟨w.store.dirty, some [], .opened, rfl⟩
  | load hflush horder => exact ⟨_, _, _, rfl⟩
  | key hflush => exact ⟨w.store.dirty, w.store.file, _, rfl⟩
  | size hflush => exact ⟨_, _, _, rfl⟩
  | data hflush hjunk => exact ⟨_, _, _, rfl⟩
  | finish hflush => exact ⟨w.store.dirty, w.store.file, .idle, rfl⟩

/-- The invariant of every interleaving. -/
def Coherent (w : World) : Prop := Threads.Holds Store.Wf Call.Ok Call.Apart w.store w.calls

theorem coherent_start {s : Store} (h : s.Wf) : Coherent { store := s } := Threads.Holds.nil h

theorem Coherent.set_ok {w : World} (h : w.Coherent) {i : Nat} {c : SetCall}
    (hi : w.calls[i]? = some (.set c)) :
    c.Ok w.store := h.each (List.mem_of_getElem? hi)

theorem Coherent.get_ok {w : World} (h : w.Coherent) {i : Nat} {c : GetCall}
    (hi : w.calls[i]? = some (.get c)) :
    c.Ok w.store := h.each (List.mem_of_getElem? hi)

/-- What a step guarantees to the calls that do not take it. -/
theorem Step.guarantee {w w' : World} {a : Action} (h : w.Coherent) (hstep : Step w a w') :
    ∃ own, Guarantee own w.store w'.store := by
  cases hstep with
  | callSet hkey hvalue => exact ⟨none, .refl none w.store⟩
  | callGet => exact ⟨none, .refl none w.store⟩
  | set hi hstep => exact ⟨_, hstep.guarantee h.shared (h.set_ok hi)⟩
  | get hi hstep => exact ⟨_, hstep.guarantee (h.get_ok hi)⟩
  | flush hflush =>
    obtain ⟨dirty, file, flush, rfl⟩ := hflush.frame
    exact ⟨none, .of_root rfl (Nat.le_refl _) fun _ _ _ => rfl⟩

theorem Step.coherent {w w' : World} {a : Action} (h : w.Coherent) (hstep : Step w a w') : w'.Coherent := by
  cases hstep with
  | callSet hkey hvalue => exact Threads.Holds.spawn Call.Apart.symm h trivial fun u e he => nomatch he
  | callGet => exact Threads.Holds.spawn Call.Apart.symm h (fun e he => nomatch he) fun u e he => nomatch he
  | set hi hstep =>
    have hok := h.set_ok hi
    refine Threads.Holds.step Call.Apart.symm h hi (hstep.wf h.shared hok) (hstep.ok h.shared hok)
      fun u hu hapart => ?_
    refine ⟨hu.stable (hstep.guarantee h.shared hok) hapart, fun e he => ?_⟩
    rcases hstep.owned he with he | rfl
    · exact hapart e he
    · exact fun hown => Nat.lt_irrefl _ (hu.owned_lt hown)
  | get hi hstep =>
    have hok := h.get_ok hi
    refine Threads.Holds.step Call.Apart.symm h hi (hstep.wf h.shared) (hstep.ok hok) fun u hu hapart => ?_
    exact ⟨hu.stable (hstep.guarantee hok) hapart, fun e he => nomatch he⟩
  | flush hflush =>
    obtain ⟨dirty, file, flush, rfl⟩ := hflush.frame
    have hg : Guarantee none w.store { w.store with dirty, file } :=
      .of_root rfl (Nat.le_refl _) fun _ _ _ => rfl
    exact Threads.Holds.env h ⟨h.shared.lt_next, h.shared.inj⟩ fun u hu => hu.stable hg fun e he => nomatch he

theorem run_coherent {w w' : World} {as : List Action} (h : w.Coherent) (hr : Runs.run step w as = some w') :
    w'.Coherent :=
  Runs.invariant (fun _ _ _ h hs => (step_spec hs).coherent h) hr h

end World

end ConfigServer
