/-
What the operations of a store do to its entries. A store is well formed when
its map points to entries already made, and no two keys to the same one; then
`set` and `get` each change the entry of their own key, and an entry keeps
its counters when it is set.
-/
import ConfigServer.StoreFile

namespace ConfigServer

namespace Map

theorem Enumerates.nodup {order : List Binding} {m : Map} (h : m.Enumerates order) :
    (order.map Sigma.fst).Nodup := by
  have hkeys : (m.entries.map Sigma.fst).Nodup := m.nodupKeys.nodup_keys
  rw [← h, Multiset.map_coe, Multiset.coe_nodup] at hkeys
  exact hkeys

theorem Enumerates.mem_iff {order : List Binding} {m : Map} (h : m.Enumerates order) {key : Bytes}
    {e : EntryPtr} :
    ⟨key, e⟩ ∈ order ↔ m.lookup key = some e := by
  rw [Finmap.lookup_eq_some_iff, ← h, Multiset.mem_coe]

theorem Enumerates.size_eq {order : List Binding} {m : Map} (h : m.Enumerates order) :
    m.size = order.length := by
  rw [size, ← h, Multiset.coe_card]

end Map

/-- An entry after one more `set`. -/
def Entry.afterSet (en : Entry) (value : Bytes) : Entry := { en with value, writes := en.writes + 1 }

/-- An entry after one more `get`. -/
def Entry.afterGet (en : Entry) : Entry := { en with reads := en.reads + 1 }

namespace Store

/-- The map points to entries that were made, and distinct keys to distinct ones. -/
structure Wf (s : Store) : Prop where
  lt_next {key : Bytes} {e : EntryPtr} : s.root.value.lookup key = some e → e < s.next
  inj {key key' : Bytes} {e : EntryPtr} :
    s.root.value.lookup key = some e → s.root.value.lookup key' = some e → key = key'

/-- The strings are shorter than `2 ^ 64`, and so many entries were made. -/
structure Sized (s : Store) : Prop where
  keys {key : Bytes} {e : EntryPtr} : s.root.value.lookup key = some e → key.length < SizeT.modulus
  values (e : EntryPtr) : (s.heap e).value.length < SizeT.modulus
  addresses : s.next < SizeT.modulus

theorem wf_empty : Wf {} := ⟨(fun h => nomatch h), (fun h => nomatch h)⟩

/-- No more keys than entries made. -/
theorem Wf.size_le {s : Store} (h : s.Wf) : s.root.value.size ≤ s.next := by
  obtain ⟨order, horder⟩ := Quot.exists_rep s.root.value.entries
  have hmem {pair : Binding} : pair ∈ order ↔ s.root.value.lookup pair.1 = some pair.2 :=
    Map.Enumerates.mem_iff horder
  have hnodup : (order.map Sigma.snd).Nodup := by
    refine (List.Nodup.of_map _ (Map.Enumerates.nodup horder)).map_on fun pair hpair pair' hpair' heq => ?_
    refine Sigma.ext (h.inj (hmem.1 hpair) ?_) (heq_of_eq heq)
    rw [heq]
    exact hmem.1 hpair'
  have hsub : order.map Sigma.snd ⊆ List.range s.next := by
    intro e he
    obtain ⟨pair, hpair, rfl⟩ := List.mem_map.1 he
    exact List.mem_range.2 (h.lt_next (hmem.1 hpair))
  have hle := (hnodup.subperm hsub).length_le
  rw [List.length_map, List.length_range] at hle
  exact (Map.Enumerates.size_eq horder).trans_le hle

/-- The entry a key is bound to. -/
def entryOf (s : Store) (key : Bytes) : Option Entry := (s.root.value.lookup key).map s.heap

/-- The key-to-value content. -/
def content (s : Store) (key : Bytes) : Option Bytes := (s.entryOf key).map Entry.value

theorem entryOf_eq_some {s : Store} {key : Bytes} {en : Entry} :
    s.entryOf key = some en ↔ ∃ e, s.root.value.lookup key = some e ∧ s.heap e = en := by
  simp [entryOf]

theorem entryOf_eq_none {s : Store} {key : Bytes} :
    s.entryOf key = none ↔ s.root.value.lookup key = none := by
  simp [entryOf]

/-! ## Changes in the heap -/

section Heap

variable (s : Store) (e : EntryPtr) (f : Entry → Entry)

@[simp] theorem modify_root : (s.modify e f).root = s.root := rfl
@[simp] theorem modify_stats : (s.modify e f).stats = s.stats := rfl
@[simp] theorem modify_heap_self : (s.modify e f).heap e = f (s.heap e) := Function.update_self ..

@[simp] theorem modify_heap_of_ne {e' : EntryPtr} (h : e' ≠ e) : (s.modify e f).heap e' = s.heap e' :=
  Function.update_of_ne h ..

end Heap

theorem Sized.modify {s : Store} (h : s.Sized) (e : EntryPtr) {f : Entry → Entry}
    (hf : (f (s.heap e)).value.length < SizeT.modulus) : (s.modify e f).Sized where
  keys he := h.keys he
  values e' := by
    by_cases he : e' = e
    · subst he
      rwa [modify_heap_self]
    · rw [modify_heap_of_ne s e f he]
      exact h.values e'
  addresses := h.addresses

theorem Sized.makeShared {s : Store} (h : s.Sized) (hroom : s.next + 1 < SizeT.modulus) :
    s.makeShared.2.Sized where
  keys he := h.keys he
  values e := by
    by_cases he : e = s.next
    · rw [he]
      simp [Store.makeShared, SizeT.modulus]
    · rw [show s.makeShared.2.heap e = s.heap e from Function.update_of_ne he ..]
      exact h.values e
  addresses := hroom

/-- Filling an entry just made leaves the others alone. -/
theorem makeShared_heap_of_ne {s : Store} (value : Bytes) {e : EntryPtr} (h : e ≠ s.next) :
    (s.makeShared.2.assignValue s.next value).heap e = s.heap e :=
  (Function.update_of_ne h ..).trans (Function.update_of_ne h ..)

theorem Sized.assignValue {s : Store} (h : s.Sized) (e : EntryPtr) {value : Bytes}
    (hvalue : value.length < SizeT.modulus) : (s.assignValue e value).Sized :=
  h.modify e (f := fun en => { en with value }) hvalue

/-- An in-place change of a bound entry changes the entry of its key, and of no other. -/
theorem modify_entryOf {s : Store} (h : s.Wf) {key : Bytes} {e : EntryPtr}
    (hbound : s.root.value.lookup key = some e)
    (f : Entry → Entry) : (s.modify e f).entryOf = Function.update s.entryOf key (some (f (s.heap e))) := by
  funext key'
  by_cases hkey : key' = key
  · subst hkey
    rw [Function.update_self, entryOf, modify_root, hbound, Option.map_some, modify_heap_self]
  · rw [Function.update_of_ne hkey, entryOf, entryOf, modify_root]
    refine Option.map_congr fun e' he' => modify_heap_of_ne s e f fun heq => hkey ?_
    exact h.inj he' (heq ▸ hbound)

/-! ## A new binding -/

/-- `s'` has the map of `s` with `key` bound to `e`, which no other key is
bound to, and differs from `s` in the heap at `e` only. -/
structure Binds (s s' : Store) (key : Bytes) (e : EntryPtr) : Prop where
  root : s'.root.value = s.root.value.insert key e
  next_le : s.next ≤ s'.next
  lt_next : e < s'.next
  unique {key' : Bytes} : key' ≠ key → s.root.value.lookup key' ≠ some e
  heap {e' : EntryPtr} : e' ≠ e → s'.heap e' = s.heap e'

theorem Binds.lookup_self {s s' : Store} {key : Bytes} {e : EntryPtr} (hb : s.Binds s' key e) :
    s'.root.value.lookup key = some e := by
  rw [hb.root, Finmap.lookup_insert]

theorem Binds.lookup_of_ne {s s' : Store} {key key' : Bytes} {e : EntryPtr} (hb : s.Binds s' key e)
    (hkey : key' ≠ key) : s'.root.value.lookup key' = s.root.value.lookup key' := by
  rw [hb.root, Finmap.lookup_insert_of_ne _ hkey]

theorem Binds.entryOf_eq {s s' : Store} {key : Bytes} {e : EntryPtr} (hb : s.Binds s' key e) :
    s'.entryOf = Function.update s.entryOf key (some (s'.heap e)) := by
  funext key'
  by_cases hkey : key' = key
  · rw [hkey, Function.update_self, entryOf, hb.lookup_self, Option.map_some]
  · rw [Function.update_of_ne hkey, entryOf, entryOf, hb.lookup_of_ne hkey]
    exact Option.map_congr fun e' he' => hb.heap fun heq => hb.unique hkey (heq ▸ he')

theorem Binds.wf {s s' : Store} {key : Bytes} {e : EntryPtr} (hb : s.Binds s' key e) (h : s.Wf) : s'.Wf := by
  have hself {key' : Bytes} (he' : s'.root.value.lookup key' = some e) : key' = key := by
    by_contra hkey
    rw [hb.lookup_of_ne hkey] at he'
    exact hb.unique hkey he'
  have hold {key' : Bytes} {e' : EntryPtr} (he' : s'.root.value.lookup key' = some e') (hne : e' ≠ e) :
      s.root.value.lookup key' = some e' := by
    have hkey : key' ≠ key := by
      rintro rfl
      exact hne (Option.some.inj (he'.symm.trans hb.lookup_self))
    rwa [hb.lookup_of_ne hkey] at he'
  refine ⟨fun {key' e'} he' => ?_, fun {key' key'' e'} he' he'' => ?_⟩
  · by_cases hne : e' = e
    · exact hne ▸ hb.lt_next
    · exact Nat.lt_of_lt_of_le (h.lt_next (hold he' hne)) hb.next_le
  · by_cases hne : e' = e
    · subst hne
      rw [hself he', hself he'']
    · exact h.inj (hold he' hne) (hold he'' hne)

/-! ## set -/

theorem findOrCreate_found {s : Store} {m : Map} {key : Bytes} {e : EntryPtr} (h : m.lookup key = some e) :
    s.findOrCreate m key = (e, s) := by
  simp only [findOrCreate, h]

theorem findOrCreate_absent {s : Store} {m : Map} {key : Bytes} (h : m.lookup key = none) :
    s.findOrCreate m key = s.makeShared := by
  simp only [findOrCreate, h]

/-- What `find` and `make_shared` give `set`: an entry no other key is bound to. -/
theorem findOrCreate_spec {s s' : Store} (h : s.Wf) {key : Bytes} {e : EntryPtr}
    (hf : s.findOrCreate s.root.value key = (e, s')) :
    s'.heap e = (s.entryOf key).getD {} ∧ s.next ≤ s'.next ∧ e < s'.next ∧
      (∀ e', e' ≠ e → s'.heap e' = s.heap e') ∧
      (∀ key', key' ≠ key → s.root.value.lookup key' ≠ some e) := by
  cases hlookup : s.root.value.lookup key with
  | some e₀ =>
    rw [findOrCreate_found hlookup] at hf
    cases hf
    refine ⟨?_, Nat.le_refl _, h.lt_next hlookup, fun _ _ => rfl, fun key' hkey hbound' => ?_⟩
    · rw [entryOf, hlookup]
      rfl
    · exact hkey (h.inj hbound' hlookup)
  | none =>
    rw [findOrCreate_absent hlookup] at hf
    cases hf
    refine ⟨?_, Nat.le_succ _, Nat.lt_succ_self _, fun e' he' => ?_, fun key' _ hbound' => ?_⟩
    · rw [entryOf, hlookup]
      exact Function.update_self ..
    · exact Function.update_of_ne he' ..
    · exact absurd (h.lt_next hbound') (Nat.lt_irrefl _)

theorem set_eq (s : Store) (key value : Bytes) :
    ∃ e s', s.findOrCreate s.root.value key = (e, s') ∧
      s.set key value = { s' with
        heap := Function.update s'.heap e ((s'.heap e).afterSet value)
        root := ⟨s.root.impl + 1, s.root.value.insert key e⟩
        stats := s'.stats.addSet
        dirty := true } := by
  obtain ⟨⟨e, s'⟩, hf⟩ : ∃ r, s.findOrCreate s.root.value key = r := ⟨_, rfl⟩
  refine ⟨e, s', hf, ?_⟩
  simp [set, setUpdate, hf, assignValue, countWrite, modify, Entry.afterSet]

theorem set_binds {s : Store} (h : s.Wf) (key value : Bytes) :
    ∃ e, s.Binds (s.set key value) key e ∧
      (s.set key value).heap e = ((s.entryOf key).getD {}).afterSet value := by
  obtain ⟨e, s', hf, hset⟩ := set_eq s key value
  obtain ⟨hheap, hnext, hlt, hother, hunique⟩ := findOrCreate_spec h hf
  rw [hset]
  refine ⟨e, ⟨rfl, hnext, hlt, hunique _, fun hne => ?_⟩, ?_⟩
  · exact (Function.update_of_ne hne ..).trans (hother _ hne)
  · exact (Function.update_self ..).trans (by rw [hheap])

theorem set_entryOf {s : Store} (h : s.Wf) (key value : Bytes) :
    (s.set key value).entryOf =
      Function.update s.entryOf key (some (((s.entryOf key).getD {}).afterSet value)) := by
  obtain ⟨e, hb, hheap⟩ := set_binds h key value
  rw [hb.entryOf_eq, hheap]

theorem set_wf {s : Store} (h : s.Wf) (key value : Bytes) : (s.set key value).Wf := by
  obtain ⟨e, hb, -⟩ := set_binds h key value
  exact hb.wf h

theorem set_stats (s : Store) (key value : Bytes) : (s.set key value).stats = s.stats.addSet := by
  obtain ⟨e, s', hf, hset⟩ := set_eq s key value
  have hstats : s'.stats = s.stats := by
    unfold findOrCreate at hf
    split at hf <;> cases hf <;> rfl
  rw [hset, ← hstats]

/-! ## get -/

theorem get_none {s : Store} {key : Bytes} (h : s.entryOf key = none) : s.get key = (none, s) := by
  rw [entryOf_eq_none] at h
  simp only [get, h]

theorem get_some {s : Store} (h : s.Wf) {key : Bytes} {en : Entry} (hen : s.entryOf key = some en) :
    ∃ e s', s.get key = (some e, s') ∧ s'.heap e = en.afterGet ∧
      s'.entryOf = Function.update s.entryOf key (some en.afterGet) ∧ s'.Wf ∧ s'.stats = s.stats.addGet := by
  obtain ⟨e, hbound, rfl⟩ := entryOf_eq_some.1 hen
  refine ⟨e, { s.countRead e with stats := s.stats.addGet }, by simp [get, hbound, countRead], ?_, ?_, ?_,
    rfl⟩
  · exact modify_heap_self s e Entry.afterGet
  · exact modify_entryOf h hbound Entry.afterGet
  · exact ⟨h.lt_next, h.inj⟩

/-! ## flush_if_dirty -/

/-- A flush changes the flag and the file only. -/
theorem flushIfDirty_frame (s : Store) (order : List Binding) (disk : Disk) :
    ∃ dirty file, (s.flushIfDirty order disk).2 = { s with dirty, file } := by
  unfold flushIfDirty
  split
  · exact ⟨s.dirty, s.file, rfl⟩
  · dsimp only
    split
    · exact ⟨false, s.file, rfl⟩
    · split
      · exact ⟨false, _, rfl⟩
      · exact ⟨false, _, rfl⟩

theorem flushIfDirty_entryOf (s : Store) (order : List Binding) (disk : Disk) :
    (s.flushIfDirty order disk).2.entryOf = s.entryOf := by
  obtain ⟨dirty, file, h⟩ := flushIfDirty_frame s order disk
  rw [h]
  rfl

theorem flushIfDirty_stats (s : Store) (order : List Binding) (disk : Disk) :
    (s.flushIfDirty order disk).2.stats = s.stats := by
  obtain ⟨dirty, file, h⟩ := flushIfDirty_frame s order disk
  rw [h]

theorem flushIfDirty_wf {s : Store} (h : s.Wf) (order : List Binding) (disk : Disk) :
    (s.flushIfDirty order disk).2.Wf := by
  obtain ⟨dirty, file, hs⟩ := flushIfDirty_frame s order disk
  rw [hs]
  exact ⟨h.lt_next, h.inj⟩

end Store

end ConfigServer
