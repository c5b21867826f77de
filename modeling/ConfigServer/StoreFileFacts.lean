/-
The file a flush writes is the image of the content: the number of keys, then
for each key, in the order of the iteration, its record. Loading reads the
records of an image back one by one, so a store flushed in any order is
loaded again with the same content.
-/
import ConfigServer.StoreFacts

namespace ConfigServer

open LittleEndian

/-- The record of a key and its value. -/
def record (pair : Bytes × Bytes) : Bytes :=
  leBytes 8 pair.1.length ++ (pair.1 ++ (leBytes 8 pair.2.length ++ pair.2))

/-- A flush image of these pairs. -/
def image (pairs : List (Bytes × Bytes)) : Bytes := leBytes 8 pairs.length ++ pairs.flatMap record

namespace Store

/-- The pairs of a key and its current value, in the order of the bindings. -/
def pairsOf (s : Store) (order : List Binding) : List (Bytes × Bytes) :=
  order.map fun pair => (pair.1, (s.heap pair.2).value)

/-- The file is a flush image of exactly this content. -/
def SavedAs (file : Option Bytes) (content : Bytes → Option Bytes) : Prop :=
  ∃ pairs, (pairs.map Prod.fst).Nodup ∧ (∀ key value, (key, value) ∈ pairs ↔ content key = some value) ∧
    file = some (image pairs)

theorem mem_pairsOf {s : Store} {order : List Binding} (h : s.root.value.Enumerates order)
    {key value : Bytes} :
    (key, value) ∈ s.pairsOf order ↔ s.content key = some value := by
  simp [pairsOf, content, entryOf, h.mem_iff]

/-! ## Writing -/

theorem write_noFault (contents bytes : Bytes) :
    OFStream.write { contents } bytes = { contents := contents ++ bytes } := rfl

theorem writePair_noFault (s : Store) (contents : Bytes) (pair : Binding) :
    s.writePair { contents } pair = { contents := contents ++ record (pair.1, (s.heap pair.2).value) } := by
  simp only [writePair, write_noFault, record, List.append_assoc]

theorem writePairs_noFault (s : Store) (order : List Binding) (contents : Bytes) :
    order.foldl s.writePair { contents } = { contents := contents ++ (s.pairsOf order).flatMap record } := by
  induction order generalizing contents with
  | nil => simp [pairsOf]
  | cons pair order ih =>
    rw [List.foldl_cons, writePair_noFault, ih]
    simp [pairsOf]

theorem flushIfDirty_file {s : Store} (hdirty : s.dirty = true) {order : List Binding}
    (h : s.root.value.Enumerates order) :
    s.flushIfDirty order {} =
      (.ok true, { s with dirty := false, file := some (image (s.pairsOf order)) }) := by
  have hlen : (s.pairsOf order).length = order.length := List.length_map _
  simp only [flushIfDirty, hdirty, h.size_eq, Bool.not_true, Bool.false_eq_true, if_false, write_noFault,
    List.nil_append, image, hlen]
  rw [show writePair { s with dirty := false } = s.writePair from rfl, writePairs_noFault]
  simp

end Store

/-! ## Reading -/

namespace LoadM

/-- Before anything else the stream holds, `p` reads exactly `bytes` and returns `a`. -/
def Reads {α : Type} (p : LoadM α) (bytes : Bytes) (a : α) : Prop :=
  ∀ rest, p.run ⟨bytes ++ rest, false⟩ = .ok (a, ⟨rest, false⟩)

theorem reads_pure {α : Type} (a : α) : Reads (pure a) [] a := fun _ => rfl

theorem Reads.bind {α β : Type} {p : LoadM α} {f : α → LoadM β} {bytes bytes' : Bytes} {a : α} {b : β}
    (hp : Reads p bytes a) (hf : Reads (f a) bytes' b) : Reads (p >>= f) (bytes ++ bytes') b := by
  intro rest
  rw [List.append_assoc, StateT.run_bind, hp]
  exact hf rest

theorem Reads.map {α β : Type} {p : LoadM α} {bytes : Bytes} {a : α} (hp : Reads p bytes a) (f : α → β) :
    Reads (p >>= fun a => pure (f a)) bytes (f a) := by
  intro rest
  rw [StateT.run_bind, hp]
  rfl

theorem reads_read (bytes : Bytes) : Reads (read bytes.length) bytes bytes := by
  intro rest
  have hfits : ¬ (bytes ++ rest).length < bytes.length := by simp
  simp only [read, StateT.run, bind, StateT.bind, get, getThe, MonadStateOf.get, StateT.get, Except.bind,
    pure, Except.pure, Bool.false_eq_true, if_false, hfits, List.take_left, List.drop_left]
  rfl

theorem overlay_eq {stored old : Bytes} (h : old.length = stored.length) : overlay stored old = stored := by
  rw [overlay, List.drop_of_length_le (Nat.le_of_eq h), List.append_nil]

theorem reads_readSize {n : Nat} (h : n < 2 ^ 64) (old : Nat) : Reads (readSize old) (leBytes 8 n) n := by
  have hread : Reads (read 8) (leBytes 8 n) (leBytes 8 n) := by
    have := reads_read (leBytes 8 n)
    rwa [leBytes_length] at this
  have hsize : leNat (overlay (leBytes 8 n) (leBytes 8 old)) = n := by
    rw [overlay_eq (by rw [leBytes_length, leBytes_length]), leNat_leBytes_of_lt h]
  have hmap := hread.map fun stored => leNat (overlay stored (leBytes 8 old))
  rw [hsize] at hmap
  exact hmap

theorem reads_readString {loader : Loader} {str : Bytes} (h : loader.allocates str.length = true) :
    Reads (readString loader str.length) str str := by
  have hstr : overlay str (List.replicate str.length 0) = str := overlay_eq List.length_replicate
  have hmap := (reads_read str).map fun stored => overlay stored (List.replicate str.length 0)
  rw [hstr] at hmap
  intro rest
  simp only [readString, h, Bool.not_true, Bool.false_eq_true, if_false]
  exact hmap rest

/-- The sizes of a pair fit a `size_t` and its strings can be allocated. -/
def Loadable (loader : Loader) (pair : Bytes × Bytes) : Prop :=
  pair.1.length < 2 ^ 64 ∧ pair.2.length < 2 ^ 64 ∧
    loader.allocates pair.1.length = true ∧ loader.allocates pair.2.length = true

instance (loader : Loader) (pair : Bytes × Bytes) : Decidable (Loadable loader pair) :=
  inferInstanceAs (Decidable (_ ∧ _))

theorem reads_readPair {loader : Loader} {pair : Bytes × Bytes} (h : Loadable loader pair) (i : Nat) :
    Reads (readPair loader i) (record pair) pair := by
  obtain ⟨hkey, hvalue, hallocKey, hallocValue⟩ := h
  unfold readPair record
  refine (reads_readSize hkey _).bind ?_
  refine (reads_readString hallocKey).bind ?_
  refine (reads_readSize hvalue _).bind ?_
  exact (reads_readString hallocValue).map fun value => (pair.1, value)

/-- What one iteration of the loop does with the pair it read. -/
def addPair (state : Map × Store) (pair : Bytes × Bytes) : Map × Store :=
  let (e, s) := state.2.makeShared
  (state.1.insert pair.1 e, s.assignValue e pair.2)

theorem reads_loadLoop {loader : Loader} {pairs : List (Bytes × Bytes)}
    (h : ∀ pair ∈ pairs, Loadable loader pair) (i : Nat) (state : Map × Store) :
    Reads (loadLoop loader pairs.length i state) (pairs.flatMap record) (pairs.foldl addPair state) := by
  induction pairs generalizing i state with
  | nil => exact reads_pure state
  | cons pair pairs ih =>
    have hpair := reads_readPair (h pair (by simp)) i
    exact hpair.bind (ih (fun p hp => h p (by simp [hp])) (i + 1) (addPair state pair))

theorem reads_image {loader : Loader} {pairs : List (Bytes × Bytes)} (hcount : pairs.length < 2 ^ 64)
    (h : ∀ pair ∈ pairs, Loadable loader pair) (state : Map × Store) :
    Reads (loadPairs loader state) (image pairs) (pairs.foldl addPair state) :=
  (reads_readSize hcount loader.size).bind (reads_loadLoop h 0 state)

/-! ### Short files -/

/-- Whatever `p` reads, if it does not throw it returns a value with `Q`. -/
def Returns {α : Type} (p : LoadM α) (Q : α → Prop) : Prop :=
  ∀ stream a stream', p.run stream = .ok (a, stream') → Q a

theorem returns_pure {α : Type} {Q : α → Prop} {a : α} (h : Q a) : Returns (pure a) Q := by
  intro stream b stream' hrun
  cases hrun
  exact h

theorem Returns.bind {α β : Type} {p : LoadM α} {f : α → LoadM β} {Q : α → Prop} {R : β → Prop}
    (hp : Returns p Q) (hf : ∀ a, Q a → Returns (f a) R) : Returns (p >>= f) R := by
  intro stream b stream' hrun
  rw [StateT.run_bind] at hrun
  cases hstep : p.run stream with
  | error err =>
    rw [hstep] at hrun
    cases hrun
  | ok r =>
    rw [hstep] at hrun
    exact hf r.1 (hp stream r.1 r.2 hstep) r.2 b stream' hrun

theorem read_returns (n : Nat) : Returns (read n) fun stored => stored.length ≤ n := by
  intro stream stored stream' hrun
  simp only [read, StateT.run, bind, StateT.bind, get, getThe, MonadStateOf.get, StateT.get, Except.bind,
    pure, Except.pure] at hrun
  split at hrun
  · cases hrun
    exact Nat.zero_le n
  · split at hrun
    · next hshort =>
      cases hrun
      exact Nat.le_of_lt hshort
    · cases hrun
      exact List.length_take_le ..

theorem overlay_length {stored old : Bytes} (h : stored.length ≤ old.length) :
    (overlay stored old).length = old.length := by
  rw [overlay, List.length_append, List.length_drop]
  omega

theorem readSize_returns (old : Nat) : Returns (readSize old) fun n => n < 2 ^ 64 := by
  refine (read_returns 8).bind fun stored hlen => returns_pure ?_
  have hoverlay : (overlay stored (leBytes 8 old)).length = 8 := by
    rw [overlay_length (by rwa [leBytes_length]), leBytes_length]
  have hlt := leNat_lt (overlay stored (leBytes 8 old))
  rw [hoverlay] at hlt
  exact hlt

theorem readString_returns (loader : Loader) (n : Nat) :
    Returns (readString loader n) fun str => str.length = n := by
  unfold readString
  split
  · intro stream str stream' hrun
    cases hrun
  · refine (read_returns n).bind fun stored hlen => returns_pure ?_
    rw [overlay_length (by rwa [List.length_replicate]), List.length_replicate]

theorem readPair_returns (loader : Loader) (i : Nat) :
    Returns (readPair loader i) fun pair => pair.1.length < 2 ^ 64 ∧ pair.2.length < 2 ^ 64 := by
  refine (readSize_returns _).bind fun keySize hkeySize => ?_
  refine (readString_returns loader keySize).bind fun key hkey => ?_
  refine (readSize_returns _).bind fun valueSize hvalueSize => ?_
  refine (readString_returns loader valueSize).bind fun value hvalue => returns_pure ?_
  exact ⟨hkey ▸ hkeySize, hvalue ▸ hvalueSize⟩

/-- However short the stream runs, the loop adds one pair for each of its iterations. -/
theorem loadLoop_returns (loader : Loader) (n i : Nat) (state : Map × Store) :
    Returns (loadLoop loader n i state) fun state' =>
      ∃ pairs : List (Bytes × Bytes), pairs.length = n ∧
        (∀ pair ∈ pairs, pair.1.length < 2 ^ 64 ∧ pair.2.length < 2 ^ 64) ∧
          state' = pairs.foldl addPair state := by
  induction n generalizing i state with
  | zero => exact returns_pure ⟨[], rfl, by simp, rfl⟩
  | succ n ih =>
    refine (readPair_returns loader i).bind fun pair hpair => ?_
    intro stream state' stream' hrun
    obtain ⟨pairs, hlen, hpairs, heq⟩ := ih (i + 1) (addPair state pair) stream state' stream' hrun
    refine ⟨pair :: pairs, by rw [List.length_cons, hlen], fun p hp => ?_, heq⟩
    rcases List.mem_cons.1 hp with rfl | hp
    · exact hpair
    · exact hpairs p hp

theorem loadPairs_returns (loader : Loader) (state : Map × Store) :
    Returns (loadPairs loader state) fun state' =>
      ∃ pairs : List (Bytes × Bytes), pairs.length < 2 ^ 64 ∧
        (∀ pair ∈ pairs, pair.1.length < 2 ^ 64 ∧ pair.2.length < 2 ^ 64) ∧
          state' = pairs.foldl addPair state := by
  refine (readSize_returns _).bind fun size hsize => ?_
  intro stream state' stream' hrun
  obtain ⟨pairs, hlen, hpairs, heq⟩ := loadLoop_returns loader size 0 state stream state' stream' hrun
  exact ⟨pairs, hlen ▸ hsize, hpairs, heq⟩

end LoadM

/-! ## Opening a store -/

namespace Store

open LoadM

/-- A store as `load_into` leaves it: no entry has been read or written, and nothing is to be saved. -/
structure Loaded (s : Store) : Prop where
  wf : s.Wf
  fresh {key : Bytes} {en : Entry} : s.entryOf key = some en → en.reads = 0 ∧ en.writes = 0
  clean : s.dirty = false
  stats : s.stats = {}

/-- The store whose root is the map loaded so far. -/
def ofLoading (state : Map × Store) : Store := { state.2 with root := ⟨1, state.1⟩ }

/-- A content with one more pair, which replaces an earlier one of its key. -/
def addContent (content : Bytes → Option Bytes) (pair : Bytes × Bytes) : Bytes → Option Bytes :=
  Function.update content pair.1 (some pair.2)

theorem addPair_binds {state : Map × Store} (h : (ofLoading state).Wf) (pair : Bytes × Bytes) :
    (ofLoading state).Binds (ofLoading (addPair state pair)) pair.1 state.2.next where
  root := rfl
  next_le := Nat.le_succ _
  lt_next := Nat.lt_succ_self _
  unique _ hbound := Nat.lt_irrefl _ (h.lt_next hbound)
  heap hne := makeShared_heap_of_ne pair.2 hne

theorem addPair_entryOf {state : Map × Store} (h : (ofLoading state).Wf) (pair : Bytes × Bytes) :
    (ofLoading (addPair state pair)).entryOf =
      Function.update (ofLoading state).entryOf pair.1 (some { value := pair.2 }) := by
  have hheap : (ofLoading (addPair state pair)).heap state.2.next = { value := pair.2 } := by
    simp [ofLoading, addPair, makeShared, assignValue]
  rw [(addPair_binds h pair).entryOf_eq, hheap]

theorem addPair_loaded {state : Map × Store} (h : (ofLoading state).Loaded) (pair : Bytes × Bytes) :
    (ofLoading (addPair state pair)).Loaded where
  wf := (addPair_binds h.wf pair).wf h.wf
  fresh {key en} hen := by
    rw [addPair_entryOf h.wf] at hen
    by_cases hkey : key = pair.1
    · rw [hkey, Function.update_self, Option.some.injEq] at hen
      exact hen ▸ ⟨rfl, rfl⟩
    · rw [Function.update_of_ne hkey] at hen
      exact h.fresh hen
  clean := h.clean
  stats := h.stats

theorem addPair_content {state : Map × Store} (h : (ofLoading state).Wf) (pair : Bytes × Bytes) :
    (ofLoading (addPair state pair)).content = addContent (ofLoading state).content pair := by
  funext key
  rw [content, addPair_entryOf h, addContent]
  by_cases hkey : key = pair.1
  · rw [hkey, Function.update_self, Function.update_self, Option.map_some]
  · rw [Function.update_of_ne hkey, Function.update_of_ne hkey, content]

theorem addPairs_loaded {state : Map × Store} (h : (ofLoading state).Loaded) (pairs : List (Bytes × Bytes)) :
    (ofLoading (pairs.foldl addPair state)).Loaded ∧
      (ofLoading (pairs.foldl addPair state)).content = pairs.foldl addContent (ofLoading state).content := by
  induction pairs generalizing state with
  | nil => exact ⟨h, rfl⟩
  | cons pair pairs ih =>
    rw [List.foldl_cons, List.foldl_cons, ← addPair_content h.wf]
    exact ih (addPair_loaded h pair)

theorem addContent_eq_some {pairs : List (Bytes × Bytes)} (h : (pairs.map Prod.fst).Nodup)
    (content : Bytes → Option Bytes) {key value : Bytes} :
    pairs.foldl addContent content key = some value ↔
      (key, value) ∈ pairs ∨ key ∉ pairs.map Prod.fst ∧ content key = some value := by
  induction pairs generalizing content with
  | nil => simp
  | cons pair pairs ih =>
    obtain ⟨hnew, hrest⟩ := List.nodup_cons.1 h
    rw [List.foldl_cons, ih hrest, addContent]
    by_cases hkey : key = pair.1
    · subst hkey
      have hnot : (pair.1, value) ∉ pairs := fun hmem => hnew (List.mem_map.2 ⟨_, hmem, rfl⟩)
      simp [hnew, hnot, Prod.ext_iff, eq_comm]
    · simp [hkey, Prod.ext_iff]

theorem empty_loaded (file : Option Bytes) : (ofLoading (∅, { file })).Loaded where
  wf := ⟨wf_empty.lt_next, wf_empty.inj⟩
  fresh h := nomatch h
  clean := rfl
  stats := rfl

theorem openFile_some (loader : Loader) (bytes : Bytes) :
    openFile loader (some bytes) =
      ((loadPairs loader (∅, { file := some bytes })).run ⟨bytes, false⟩).map fun r => ofLoading r.1 := by
  have hinto : loadInto loader { file := some bytes } ∅ =
      ((loadPairs loader (∅, { file := some bytes })).run ⟨bytes, false⟩).map Prod.fst := by
    unfold loadInto
    dsimp only
    cases (loadPairs loader (∅, { file := some bytes })).run ⟨bytes, false⟩ with
    | error err => rfl
    | ok r => rfl
  unfold openFile
  dsimp only
  rw [hinto]
  cases (loadPairs loader (∅, { file := some bytes })).run ⟨bytes, false⟩ with
  | error err => rfl
  | ok r => rfl

/-- Whatever the file holds, a store that could be opened has been made by adding pairs to the empty one. -/
theorem openFile_eq {loader : Loader} {file : Option Bytes} {s : Store} (h : openFile loader file = .ok s) :
    ∃ pairs : List (Bytes × Bytes), pairs.length < 2 ^ 64 ∧
      (∀ pair ∈ pairs, pair.1.length < 2 ^ 64 ∧ pair.2.length < 2 ^ 64) ∧
      s = ofLoading (pairs.foldl addPair (∅, { file })) := by
  cases file with
  | none =>
    cases h
    exact ⟨[], by decide, by simp, rfl⟩
  | some bytes =>
    rw [openFile_some] at h
    cases hload : (loadPairs loader (∅, { file := some bytes })).run ⟨bytes, false⟩ with
    | error err =>
      rw [hload] at h
      cases h
    | ok r =>
      rw [hload] at h
      obtain ⟨pairs, hlen, hpairs, heq⟩ := loadPairs_returns loader _ _ r.1 r.2 hload
      exact ⟨pairs, hlen, hpairs, by rw [← heq]; exact (Except.ok.inj h).symm⟩

theorem openFile_loaded {loader : Loader} {file : Option Bytes} {s : Store}
    (h : openFile loader file = .ok s) :
    s.Loaded := by
  obtain ⟨pairs, -, -, rfl⟩ := openFile_eq h
  exact (addPairs_loaded (empty_loaded file) pairs).1

theorem addPair_sized {state : Map × Store} (h : (ofLoading state).Sized) {pair : Bytes × Bytes}
    (hkey : pair.1.length < SizeT.modulus) (hvalue : pair.2.length < SizeT.modulus)
    (hroom : state.2.next + 1 < SizeT.modulus) : (ofLoading (addPair state pair)).Sized where
  keys {key e} he := by
    by_cases hkey' : key = pair.1
    · exact hkey' ▸ hkey
    · exact h.keys ((Finmap.lookup_insert_of_ne state.1 hkey').symm.trans he)
  values := ((h.makeShared hroom).assignValue state.2.next hvalue).values
  addresses := hroom

theorem addPairs_sized {pairs : List (Bytes × Bytes)}
    (hpairs : ∀ pair ∈ pairs, pair.1.length < SizeT.modulus ∧ pair.2.length < SizeT.modulus)
    {state : Map × Store} (h : (ofLoading state).Sized)
    (hroom : state.2.next + pairs.length < SizeT.modulus) :
    (ofLoading (pairs.foldl addPair state)).Sized := by
  induction pairs generalizing state with
  | nil => exact h
  | cons pair pairs ih =>
    have hpair := hpairs pair List.mem_cons_self
    have hone : state.2.next + 1 < SizeT.modulus :=
      Nat.lt_of_le_of_lt (Nat.add_le_add_left (Nat.le_add_left 1 pairs.length) _) hroom
    refine ih (fun p hp => hpairs p (List.mem_cons_of_mem _ hp)) (addPair_sized h hpair.1 hpair.2 hone) ?_
    show state.2.next + 1 + pairs.length < SizeT.modulus
    rw [Nat.add_assoc, Nat.add_comm 1]
    exact hroom

theorem openFile_sized {loader : Loader} {file : Option Bytes} {s : Store}
    (h : openFile loader file = .ok s) :
    s.Sized := by
  obtain ⟨pairs, hlen, hpairs, rfl⟩ := openFile_eq h
  have hempty : (ofLoading (∅, { file })).Sized :=
    ⟨(fun h => nomatch h), fun _ => Nat.two_pow_pos 64, Nat.two_pow_pos 64⟩
  refine addPairs_sized hpairs hempty ?_
  rwa [Nat.zero_add]

theorem openFile_image {loader : Loader} {pairs : List (Bytes × Bytes)} (hcount : pairs.length < 2 ^ 64)
    (hpairs : ∀ pair ∈ pairs, Loadable loader pair) :
    openFile loader (some (image pairs)) =
      .ok (ofLoading (pairs.foldl addPair (∅, { file := some (image pairs) }))) := by
  have hread := reads_image hcount hpairs (∅, { file := some (image pairs) }) []
  rw [List.append_nil] at hread
  rw [openFile_some, hread]
  rfl

/-- The sizes of a content fit a `size_t` and its strings can be allocated. -/
def Allocated (loader : Loader) (content : Bytes → Option Bytes) : Prop :=
  ∀ key value, content key = some value → Loadable loader (key, value)

/-- An image of the content of a store has a pair for each of its keys, and is
loaded as a store with that content. -/
theorem SavedAs.openFile {loader : Loader} {s : Store} {file : Option Bytes} (h : SavedAs file s.content)
    (hcount : s.root.value.size < 2 ^ 64) (halloc : Allocated loader s.content) :
    ∃ t, Store.openFile loader file = .ok t ∧ t.Loaded ∧ t.content = s.content := by
  obtain ⟨pairs, hnodup, hmem, rfl⟩ := h
  have hkeys : (pairs.map Prod.fst).toFinset ⊆ s.root.value.keys := by
    intro key hkey
    obtain ⟨⟨_, value⟩, hpair, rfl⟩ := List.mem_map.1 (List.mem_toFinset.1 hkey)
    obtain ⟨en, hen, -⟩ := Option.map_eq_some_iff.1 ((hmem _ value).1 hpair)
    obtain ⟨e, he, -⟩ := entryOf_eq_some.1 hen
    exact Finmap.mem_keys.2 (Finmap.mem_of_lookup_eq_some he)
  have hlen : pairs.length ≤ s.root.value.size := by
    have hcard := Finset.card_le_card hkeys
    rw [List.toFinset_card_of_nodup hnodup, List.length_map] at hcard
    exact hcard.trans_eq (Multiset.card_map ..)
  have hload := addPairs_loaded (empty_loaded (some (image pairs))) pairs
  have hpairs (pair : Bytes × Bytes) (hp : pair ∈ pairs) : Loadable loader pair :=
    halloc _ _ ((hmem _ _).1 hp)
  refine ⟨_, openFile_image (Nat.lt_of_le_of_lt hlen hcount) hpairs, hload.1, ?_⟩
  rw [hload.2]
  funext key
  refine Option.ext fun value => ?_
  rw [addContent_eq_some hnodup, hmem]
  exact or_iff_left fun h => nomatch h.2

theorem flushIfDirty_savedAs {s : Store} (hdirty : s.dirty = true) {order : List Binding}
    (h : s.root.value.Enumerates order) : SavedAs (s.flushIfDirty order {}).2.file s.content := by
  rw [flushIfDirty_file hdirty h]
  refine ⟨s.pairsOf order, ?_, fun key value => mem_pairsOf h, rfl⟩
  rw [pairsOf, List.map_map]
  exact h.nodup

/-- **A store flushed in any order of iteration is loaded again with the same
content: every key with its value, no other key, all counters at 0 and nothing
to be saved.** -/
theorem openFile_flushIfDirty {s : Store} (loader : Loader) {order : List Binding} (hdirty : s.dirty = true)
    (horder : s.root.value.Enumerates order) (hcount : s.root.value.size < 2 ^ 64)
    (halloc : Allocated loader s.content) :
    ∃ s' t, s.flushIfDirty order {} = (.ok true, s') ∧ openFile loader s'.file = .ok t ∧
      t.content = s.content ∧ (∀ key en, t.entryOf key = some en → en.reads = 0 ∧ en.writes = 0) ∧
      t.dirty = false := by
  obtain ⟨t, ht, hloaded, hcontent⟩ := (flushIfDirty_savedAs hdirty horder).openFile hcount halloc
  rw [flushIfDirty_file hdirty horder] at ht ⊢
  exact ⟨_, t, rfl, ht, hcontent, fun _ _ => hloaded.fresh, hloaded.clean⟩

/-- A key with a NUL byte and an empty key with an empty value. -/
def twoKeys : Store := (({} : Store).set [107, 0] [1, 0, 2]).set [] []

theorem openFile_flushIfDirty_twoKeys :
    ∃ s' t, twoKeys.flushIfDirty [⟨[], 1⟩, ⟨[107, 0], 0⟩] {} = (.ok true, s') ∧ openFile {} s'.file = .ok t ∧
      t.content = twoKeys.content ∧ (∀ key en, t.entryOf key = some en → en.reads = 0 ∧ en.writes = 0) ∧
      t.dirty = false := by
  have horder : twoKeys.root.value.Enumerates [⟨[], 1⟩, ⟨[107, 0], 0⟩] := by decide
  have hpairs : twoKeys.pairsOf [⟨[], 1⟩, ⟨[107, 0], 0⟩] = [([], []), ([107, 0], [1, 0, 2])] := by decide
  have hloadable : ∀ pair ∈ [(([] : Bytes), ([] : Bytes)), ([107, 0], [1, 0, 2])], Loadable {} pair := by
    decide
  refine openFile_flushIfDirty {} rfl horder (by decide) fun key value h => hloadable (key, value) ?_
  rw [← hpairs]
  exact (mem_pairsOf horder).2 h

end Store

end ConfigServer
