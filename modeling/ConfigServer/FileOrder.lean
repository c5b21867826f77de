/-
The bytes of the file. A flush writes the records in the order in which the
iterator of the tree comes to the keys. That order depends on the keys that are
there and on nothing else, so two stores with the same content write the same
bytes, whatever their histories, unless two keys of the content have one hash.
-/
import ConfigServer.ChampOrder
import ConfigServer.Durable

namespace ConfigServer

open Champ DurableMap LittleEndian

variable {hasher : Bytes → Hash}

/-- What a flush writes for one pair. -/
def OFStream.writeRecord (out : OFStream) (pair : Bytes × Bytes) : OFStream :=
  let out := out.write (leBytes 8 pair.1.length)
  let out := out.write pair.1
  let out := out.write (leBytes 8 pair.2.length)
  out.write pair.2

namespace TreeStore

/-- The pairs of a key and its value, in the order of the iterator. -/
def pairs (t : TreeStore hasher) : List (Bytes × Bytes) := t.toStore.pairsOf t.root.value.visited

theorem foldl_writePair (t : TreeStore hasher) (out : OFStream) :
    t.root.value.visited.foldl t.writePair out = t.pairs.foldl OFStream.writeRecord out := by
  rw [pairs, Store.pairsOf, List.foldl_map]
  rfl

theorem length_pairs (t : TreeStore hasher) : t.pairs.length = t.root.value.size := by
  rw [pairs, Store.pairsOf, List.length_map, ImmerMap.visited_eq]
  exact t.root.value.size_eq.symm

/-- What a flush does depends on the disk and on the pairs it writes. -/
theorem flushIfDirty_of_pairs {t t' : TreeStore hasher} (hdirty : t.dirty = true) (hdirty' : t'.dirty = true)
    (hpairs : t.pairs = t'.pairs) (disk : Disk) :
    (t.flushIfDirty disk).1 = (t'.flushIfDirty disk).1 ∧
      (disk.opens = true → (t.flushIfDirty disk).2.file = (t'.flushIfDirty disk).2.file) := by
  have hsize : t.root.value.size = t'.root.value.size := by rw [← length_pairs, ← length_pairs, hpairs]
  have hfold (out : OFStream) : t.root.value.visited.foldl (writePair { t with dirty := false }) out =
      t'.root.value.visited.foldl (writePair { t' with dirty := false }) out := by
    refine (foldl_writePair t out).trans ?_
    rw [hpairs]
    exact (foldl_writePair t' out).symm
  simp only [flushIfDirty, hdirty, hdirty', hsize, hfold]
  cases disk.opens with
  | false => simp
  | true =>
    simp only [Bool.not_true, Bool.false_eq_true, if_false]
    split <;> exact ⟨rfl, fun _ => rfl⟩

theorem mem_keys_iff (t : TreeStore hasher) (key : Bytes) :
    key ∈ t.root.value.elements.keys ↔ (t.toStore.content key).isSome := by
  rw [Store.content, Store.entryOf, Option.isSome_map, Option.isSome_map]
  exact List.dlookup_isSome.symm

theorem pairs_eq (t : TreeStore hasher) :
    t.pairs = t.root.value.elements.keys.map fun key => (key, (t.toStore.content key).getD []) := by
  rw [pairs, Store.pairsOf, ImmerMap.visited_eq, List.keys, List.map_map]
  refine List.map_congr_left fun pair hpair => ?_
  have hlookup : t.root.value.toFinmap.lookup pair.1 = some pair.2 :=
    List.mem_dlookup t.root.value.nodupKeys hpair
  have hcontent : t.toStore.content pair.1 = some (t.toStore.heap pair.2).value := by
    rw [Store.content, Store.entryOf, show t.toStore.root.value.lookup pair.1 = some pair.2 from hlookup]
    rfl
  rw [Function.comp_apply, hcontent]
  rfl

/-- Stores with the same content have the same pairs in the same order. -/
theorem pairs_of_content {t t' : TreeStore hasher} (hcontent : t.toStore.content = t'.toStore.content)
    (hinj : ∀ key key', (t.toStore.content key).isSome → (t.toStore.content key').isSome →
      hasher key = hasher key' → key = key') : t.pairs = t'.pairs := by
  have hkeys : t.root.value.elements.keys = t'.root.value.elements.keys := by
    refine ImmerMap.keys_elements _ _ (fun key => ?_) fun key hkey key' hkey' => ?_
    · rw [mem_keys_iff, mem_keys_iff, hcontent]
    · exact hinj key key' ((t.mem_keys_iff key).1 hkey) ((t.mem_keys_iff key').1 hkey')
  rw [pairs_eq, pairs_eq, hkeys, hcontent]

/-- **The file depends on the content alone.** After two histories with restarts that
leave the same content to be saved, a flush has the same outcome on any disk and
writes the same bytes, if no two keys of the content have one hash. The flushes of
the histories write the whole file or cannot open it, nothing is set in them that
cannot be allocated, and both have the same `hasher`; only the last flush is to any
disk. -/
theorem run_sameFile (hasher : Bytes → Hash) (limit : Nat) (hlimit : limit < 2 ^ 64) (calls calls' : List Call)
    (hcalls : ∀ call ∈ calls, call.Fits limit) (hcalls' : ∀ call ∈ calls', call.Fits limit)
    (hcount : calls.length < 2 ^ 64) (hcount' : calls'.length < 2 ^ 64)
    (hdirty : (init.run (calls.map Call.event)).dirty = true)
    (hdirty' : (init.run (calls'.map Call.event)).dirty = true)
    (hcontent : (init.run (calls.map Call.event)).live.content = (init.run (calls'.map Call.event)).live.content)
    (hinj : ∀ key key', ((init.run (calls.map Call.event)).live.content key).isSome →
      ((init.run (calls.map Call.event)).live.content key').isSome → hasher key = hasher key' → key = key')
    (disk : Disk) :
    ∃ t t' : TreeStore hasher, runCalls {} calls = .ok t ∧ runCalls {} calls' = .ok t' ∧
      (t.flushIfDirty disk).1 = (t'.flushIfDirty disk).1 ∧
      (disk.opens = true → (t.flushIfDirty disk).2.file = (t'.flushIfDirty disk).2.file) := by
  obtain ⟨t, ht, h⟩ := represents_runCalls hasher hlimit hcalls hcount
  obtain ⟨t', ht', h'⟩ := represents_runCalls hasher hlimit hcalls' hcount'
  have hsame : t.toStore.content = t'.toStore.content := h.content.trans (hcontent.trans h'.content.symm)
  refine ⟨t, t', ht, ht', flushIfDirty_of_pairs (h.dirty.trans hdirty) (h'.dirty.trans hdirty') ?_ disk⟩
  refine pairs_of_content hsame fun key key' hkey hkey' => ?_
  rw [h.content] at hkey hkey'
  exact hinj key key' hkey hkey'

/-- Two keys set one after the other. -/
def oneWay : List Call := [.set ⟨[97], [1]⟩, .set ⟨[98, 98], [2]⟩]

/-- The same content after a restart in between. -/
def otherWay : List Call :=
  [.set ⟨[98, 98], [2]⟩, .flush true, .restart {} fun _ _ => true, .set ⟨[97], [5]⟩, .set ⟨[97], [1]⟩]

theorem oneWay_content (key : Bytes) : (init.run (oneWay.map Call.event)).live.content key =
    if [98, 98] = key then some [2] else if [97] = key then some [1] else none :=
  DurableMap.run_content clean_init (by simp [oneWay, Careful, Call.event, DurableMap.step]) key

theorem otherWay_content (key : Bytes) : (init.run (otherWay.map Call.event)).live.content key =
    if [97] = key then some [1] else if [97] = key then some [5] else if [98, 98] = key then some [2]
      else none :=
  DurableMap.run_content clean_init (by simp [otherWay, Careful, Call.event, DurableMap.step]) key

theorem run_sameFile_otherWay :
    ∃ t t' : TreeStore fun key => BitVec.ofNat 64 key.length, runCalls {} oneWay = .ok t ∧
      runCalls {} otherWay = .ok t' ∧ (t.flushIfDirty {}).1 = (t'.flushIfDirty {}).1 ∧
      (Disk.opens {} = true → (t.flushIfDirty {}).2.file = (t'.flushIfDirty {}).2.file) := by
  have hkeys (key : Bytes) (h : ((init.run (oneWay.map Call.event)).live.content key).isSome) :
      key = [97] ∨ key = [98, 98] := by
    rw [oneWay_content] at h
    split at h
    · exact .inr (Eq.symm ‹_›)
    · split at h
      · exact .inl (Eq.symm ‹_›)
      · cases h
  refine run_sameFile _ 2 (by decide) oneWay otherWay ?_ ?_ (by decide) (by decide) rfl rfl ?_ ?_ {}
  · simp [oneWay, Call.Fits]
  · simp [otherWay, Call.Fits]
  · funext key
    rw [oneWay_content, otherWay_content]
    by_cases h : [97] = key
    · subst h
      rfl
    · simp [h]
  · intro key key' hkey hkey' hhash
    rcases hkeys key hkey with rfl | rfl <;> rcases hkeys key' hkey' with rfl | rfl
    · rfl
    · exact absurd hhash (by decide)
    · exact absurd hhash (by decide)
    · rfl

end TreeStore

end ConfigServer
