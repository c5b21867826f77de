/-
What `load_into` makes of an arbitrary file. A scanner that stops at the first
field it cannot read says what the bytes encode. `load_into` agrees with it on
a file that is complete and on one whose sizes no string can have. On a file
that ends too early it goes on with what its variables and strings hold, and
succeeds with entries that are not in the file.
-/
import ConfigServer.StoreFileFacts

namespace ConfigServer

open LittleEndian

/-! ## Scanning a file -/

/-- Why a file is not that of any pairs: it ends before a field it announces,
or a string is longer than any `std::string`. -/
inductive Broken
  | short
  | tooLong
deriving DecidableEq

abbrev ScanM := StateT Bytes (Except Broken)

namespace ScanM

def take (n : Nat) : ScanM Bytes := fun bytes =>
  if bytes.length < n then .error .short else .ok (bytes.take n, bytes.drop n)

def size : ScanM Nat := do
  let field ← take 8
  return leNat field

def string : ScanM Bytes := do
  let n ← size
  if 2 ^ 63 ≤ n then throw .tooLong else take n

def pair : ScanM (Bytes × Bytes) := do
  let key ← string
  let value ← string
  return (key, value)

def pairs : Nat → ScanM (List (Bytes × Bytes))
  | 0 => return []
  | n + 1 => do
    let p ← pair
    let ps ← pairs n
    return p :: ps

def file : ScanM (List (Bytes × Bytes)) := do
  let n ← size
  pairs n

end ScanM

/-- The number of pairs and each of them in full, whatever follows. -/
structure Encodes (bytes : Bytes) (pairs : List (Bytes × Bytes)) : Prop where
  image : ∃ rest, bytes = image pairs ++ rest
  count : pairs.length < 2 ^ 64
  sizes : ∀ pair ∈ pairs, pair.1.length < 2 ^ 64 ∧ pair.2.length < 2 ^ 64

/-- No string is as long as `2 ^ 63`. -/
def Loader.Bounded (loader : Loader) : Prop := ∀ n, loader.allocates n = true → n < 2 ^ 63

/-- Whenever the bytes are loaded, they are loaded as the pairs they encode. -/
def LoadedAsEncoded (bytes : Bytes) : Prop :=
  ∀ (loader : Loader) (t : Store), loader.Bounded → Store.openFile loader (some bytes) = .ok t →
    ∃ pairs, Encodes bytes pairs ∧ t.content = pairs.foldl Store.addContent fun _ => none

section

variable {σ ε α β : Type} {p : StateT σ (Except ε) α} {f : α → StateT σ (Except ε) β}

theorem bind_eq_ok {s : σ} {r : β × σ} (h : (p >>= f).run s = .ok r) :
    ∃ a s', p.run s = .ok (a, s') ∧ (f a).run s' = .ok r := by
  rw [StateT.run_bind] at h
  cases hp : p.run s with
  | error e =>
    rw [hp] at h
    cases h
  | ok q =>
    rw [hp] at h
    exact ⟨q.1, q.2, rfl, h⟩

theorem bind_eq_error {s : σ} {e : ε} (h : (p >>= f).run s = .error e) :
    p.run s = .error e ∨ ∃ a s', p.run s = .ok (a, s') ∧ (f a).run s' = .error e := by
  rw [StateT.run_bind] at h
  cases hp : p.run s with
  | error e' =>
    rw [hp] at h
    exact .inl (by cases h; rfl)
  | ok q =>
    rw [hp] at h
    exact .inr ⟨q.1, q.2, rfl, h⟩

theorem bind_run_ok {s s' : σ} {a : α} (h : p.run s = .ok (a, s')) : (p >>= f).run s = (f a).run s' := by
  rw [StateT.run_bind, h]
  rfl

theorem bind_run_error {s : σ} {e : ε} (h : p.run s = .error e) : (p >>= f).run s = .error e := by
  rw [StateT.run_bind, h]
  rfl

end

/-! ## What the scanner finds -/

namespace ScanM

theorem take_eq_ok {n : Nat} {bytes a rest : Bytes} (h : (take n).run bytes = .ok (a, rest)) :
    a.length = n ∧ bytes = a ++ rest := by
  simp only [StateT.run, take] at h
  split at h
  · cases h
  · next hlen =>
    cases h
    exact ⟨List.length_take_of_le (Nat.le_of_not_lt hlen), (List.take_append_drop n bytes).symm⟩

theorem size_eq_ok {bytes rest : Bytes} {n : Nat} (h : size.run bytes = .ok (n, rest)) :
    n < 2 ^ 64 ∧ bytes = leBytes 8 n ++ rest := by
  obtain ⟨field, _, htake, hpure⟩ := bind_eq_ok h
  cases hpure
  obtain ⟨hlen, rfl⟩ := take_eq_ok htake
  have hlt := leNat_lt field
  have hfield := leBytes_leNat field
  rw [hlen] at hlt hfield
  exact ⟨hlt, by rw [hfield]⟩

theorem string_eq_ok {bytes str rest : Bytes} (h : string.run bytes = .ok (str, rest)) :
    str.length < 2 ^ 64 ∧ bytes = leBytes 8 str.length ++ (str ++ rest) := by
  obtain ⟨n, _, hsize, hrest⟩ := bind_eq_ok h
  obtain ⟨hn, rfl⟩ := size_eq_ok hsize
  split at hrest
  · cases hrest
  · obtain ⟨rfl, rfl⟩ := take_eq_ok hrest
    exact ⟨hn, rfl⟩

theorem pair_eq_ok {bytes rest : Bytes} {p : Bytes × Bytes} (h : pair.run bytes = .ok (p, rest)) :
    (p.1.length < 2 ^ 64 ∧ p.2.length < 2 ^ 64) ∧ bytes = record p ++ rest := by
  obtain ⟨key, _, hkey, h⟩ := bind_eq_ok h
  obtain ⟨value, _, hvalue, h⟩ := bind_eq_ok h
  cases h
  obtain ⟨hk, rfl⟩ := string_eq_ok hkey
  obtain ⟨hv, rfl⟩ := string_eq_ok hvalue
  exact ⟨⟨hk, hv⟩, by simp [record]⟩

theorem pairs_eq_ok {n : Nat} {bytes rest : Bytes} {ps : List (Bytes × Bytes)}
    (h : (pairs n).run bytes = .ok (ps, rest)) :
    ps.length = n ∧ (∀ p ∈ ps, p.1.length < 2 ^ 64 ∧ p.2.length < 2 ^ 64) ∧
      bytes = ps.flatMap record ++ rest := by
  induction n generalizing bytes ps with
  | zero =>
    cases h
    exact ⟨rfl, by simp, rfl⟩
  | succ n ih =>
    obtain ⟨p, _, hpair, h⟩ := bind_eq_ok h
    obtain ⟨ps', _, hpairs, h⟩ := bind_eq_ok h
    cases h
    obtain ⟨hp, rfl⟩ := pair_eq_ok hpair
    obtain ⟨hlen, hps, rfl⟩ := ih hpairs
    refine ⟨by rw [List.length_cons, hlen], fun q hq => ?_, by simp⟩
    rcases List.mem_cons.1 hq with rfl | hq
    · exact hp
    · exact hps q hq

theorem file_eq_ok {bytes rest : Bytes} {ps : List (Bytes × Bytes)} (h : file.run bytes = .ok (ps, rest)) :
    Encodes bytes ps := by
  obtain ⟨n, _, hsize, hpairs⟩ := bind_eq_ok h
  obtain ⟨hn, rfl⟩ := size_eq_ok hsize
  obtain ⟨rfl, hps, rfl⟩ := pairs_eq_ok hpairs
  exact ⟨⟨rest, by simp [image]⟩, hn, hps⟩

/-- Before anything else, `q` takes exactly `bytes` and returns `a`, or finds a string that is too long. -/
def Scans {α : Type} (q : ScanM α) (bytes : Bytes) (a : α) : Prop :=
  ∀ rest, q.run (bytes ++ rest) = .ok (a, rest) ∨ q.run (bytes ++ rest) = .error .tooLong

theorem scans_pure {α : Type} (a : α) : Scans (pure a) [] a := fun _ => .inl rfl

theorem Scans.bind {α β : Type} {q : ScanM α} {g : α → ScanM β} {bytes bytes' : Bytes} {a : α} {b : β}
    (hq : Scans q bytes a) (hg : Scans (g a) bytes' b) : Scans (q >>= g) (bytes ++ bytes') b := by
  intro rest
  rw [List.append_assoc]
  rcases hq (bytes' ++ rest) with h | h
  · rw [bind_run_ok h]
    exact hg rest
  · exact .inr (bind_run_error h)

theorem Scans.map {α β : Type} {q : ScanM α} {bytes : Bytes} {a : α} (hq : Scans q bytes a) (g : α → β) :
    Scans (q >>= fun a => pure (g a)) bytes (g a) := by
  have h := hq.bind (g := fun a => pure (g a)) (scans_pure (g a))
  rwa [List.append_nil] at h

theorem scans_take (bytes : Bytes) : Scans (take bytes.length) bytes bytes := by
  intro rest
  simp [StateT.run, take]

theorem scans_size {n : Nat} (h : n < 2 ^ 64) : Scans size (leBytes 8 n) n := by
  have htake := scans_take (leBytes 8 n)
  rw [leBytes_length] at htake
  have hmap := htake.map leNat
  rwa [leNat_leBytes_of_lt h] at hmap

theorem scans_string {str : Bytes} (h : str.length < 2 ^ 64) :
    Scans string (leBytes 8 str.length ++ str) str := by
  refine (scans_size h).bind fun rest => ?_
  split
  · exact .inr rfl
  · exact scans_take str rest

theorem scans_pair {p : Bytes × Bytes} (h : p.1.length < 2 ^ 64 ∧ p.2.length < 2 ^ 64) :
    Scans pair (record p) p := by
  have hvalue := (scans_string h.2).map fun value => (p.1, value)
  have hpair := (scans_string h.1).bind (g := fun key => string >>= fun value => pure (key, value)) hvalue
  rwa [List.append_assoc] at hpair

theorem scans_pairs {ps : List (Bytes × Bytes)} (h : ∀ p ∈ ps, p.1.length < 2 ^ 64 ∧ p.2.length < 2 ^ 64) :
    Scans (pairs ps.length) (ps.flatMap record) ps := by
  induction ps with
  | nil => exact scans_pure []
  | cons p ps ih =>
    have hrest := ih fun q hq => h q (List.mem_cons_of_mem p hq)
    exact (scans_pair (h p List.mem_cons_self)).bind (hrest.map fun ps => p :: ps)

/-- A file that encodes pairs does not end before a field it announces. -/
theorem not_short {bytes : Bytes} {ps : List (Bytes × Bytes)} (h : Encodes bytes ps) :
    file.run bytes ≠ .error .short := by
  obtain ⟨⟨rest, rfl⟩, hcount, hsizes⟩ := h
  intro hshort
  rcases ((scans_size hcount).bind (scans_pairs hsizes)) rest with hok | hlong
  · exact nomatch hshort.symm.trans hok
  · exact nomatch hshort.symm.trans hlong

end ScanM

/-! ## What is loaded -/

namespace LoadM

variable {α β : Type}

/-- Where the scanner takes a value, `p` loads that value or throws, and where
it finds a string that is too long, `p` throws. -/
structure Sound (p : LoadM α) (q : ScanM α) : Prop where
  ok {bytes rest : Bytes} {a : α} {r : α × IFStream} :
    q.run bytes = .ok (a, rest) → p.run ⟨bytes, false⟩ = .ok r → r = (a, ⟨rest, false⟩)
  tooLong {bytes : Bytes} {r : α × IFStream} :
    q.run bytes = .error .tooLong → p.run ⟨bytes, false⟩ ≠ .ok r

theorem Sound.pure (a : α) : Sound (return a) (return a) where
  ok hq hp := by
    cases hq
    cases hp
    rfl
  tooLong hq := nomatch hq

theorem Sound.bind {p : LoadM α} {q : ScanM α} {f : α → LoadM β} {g : α → ScanM β} (h : Sound p q)
    (hf : ∀ a, Sound (f a) (g a)) : Sound (p >>= f) (q >>= g) where
  ok hq hp := by
    obtain ⟨a, rest, hq, hg⟩ := bind_eq_ok hq
    obtain ⟨a', stream, hp, hf'⟩ := bind_eq_ok hp
    cases h.ok hq hp
    exact (hf a).ok hg hf'
  tooLong hq hp := by
    obtain ⟨a', stream, hp, hf'⟩ := bind_eq_ok hp
    rcases bind_eq_error hq with hq | ⟨a, rest, hq, hg⟩
    · exact h.tooLong hq hp
    · cases h.ok hq hp
      exact (hf _).tooLong hg hf'

theorem read_of_lt {n : Nat} {bytes : Bytes} (h : bytes.length < n) :
    (read n).run ⟨bytes, false⟩ = .ok (bytes, ⟨[], true⟩) := by
  simp only [read, StateT.run, bind, StateT.bind, get, getThe, MonadStateOf.get, StateT.get, Except.bind,
    pure, Except.pure, Bool.false_eq_true, if_false, h, if_true]
  rfl

/-- A field read in full replaces all of the variable. -/
theorem Sound.read {n : Nat} {old : Bytes} (hold : old.length = n) :
    Sound (do let stored ← LoadM.read n; return overlay stored old) (ScanM.take n) where
  ok {_ rest a _} hq hp := by
    obtain ⟨hlen, rfl⟩ := ScanM.take_eq_ok hq
    have hread := (reads_read a).map fun stored => overlay stored old
    rw [overlay_eq (hold.trans hlen.symm), hlen] at hread
    exact Except.ok.inj (hp.symm.trans (hread rest))
  tooLong hq := by
    simp only [StateT.run, ScanM.take] at hq
    split at hq <;> cases hq

theorem Sound.readSize (old : Nat) : Sound (LoadM.readSize old) ScanM.size := by
  have h := (Sound.read (leBytes_length 8 old)).bind fun field => Sound.pure (leNat field)
  simpa [LoadM.readSize, ScanM.size] using h

theorem Sound.readString {loader : Loader} (hloader : loader.Bounded) (old : Nat) :
    Sound (do let n ← LoadM.readSize old; LoadM.readString loader n) ScanM.string := by
  refine (Sound.readSize old).bind fun n => ?_
  by_cases halloc : loader.allocates n = true
  · have hn : ¬ 2 ^ 63 ≤ n := Nat.not_le.2 (hloader n halloc)
    simp only [LoadM.readString, halloc, Bool.not_true, Bool.false_eq_true, if_false, hn]
    exact Sound.read List.length_replicate
  · simp only [LoadM.readString, halloc, Bool.not_false, if_true]
    refine ⟨?_, ?_⟩
    · intro bytes rest a r hq hp
      cases hp
    · intro bytes r hq hp
      cases hp

theorem Sound.readPair {loader : Loader} (hloader : loader.Bounded) (i : Nat) :
    Sound (LoadM.readPair loader i) ScanM.pair := by
  have h := (Sound.readString hloader (loader.sizes i).1).bind fun key =>
    (Sound.readString hloader (loader.sizes i).2).bind fun value => Sound.pure (key, value)
  simpa only [LoadM.readPair, ScanM.pair, bind_assoc] using h

theorem Sound.loadLoop {loader : Loader} (hloader : loader.Bounded) (n i : Nat) (state : Map × Store) :
    Sound (LoadM.loadLoop loader n i state) (do let ps ← ScanM.pairs n; return ps.foldl addPair state) := by
  induction n generalizing i state with
  | zero =>
    simp only [ScanM.pairs, pure_bind, List.foldl_nil]
    exact Sound.pure state
  | succ n ih =>
    simp only [ScanM.pairs, bind_assoc, pure_bind, List.foldl_cons]
    exact (Sound.readPair hloader i).bind fun pair => ih (i + 1) (addPair state pair)

theorem Sound.loadPairs {loader : Loader} (hloader : loader.Bounded) (state : Map × Store) :
    Sound (LoadM.loadPairs loader state) (do let ps ← ScanM.file; return ps.foldl addPair state) := by
  simp only [ScanM.file, bind_assoc]
  exact (Sound.readSize loader.size).bind fun n => Sound.loadLoop hloader n 0 state

/-- Allocates every string there can be, and finds zeros in the sizes it has not read. -/
def generous : Loader := { allocates := fun n => n < 2 ^ 63 }

theorem generous_bounded : generous.Bounded := fun _ h => of_decide_eq_true h

/-- Where the scanner takes a value, `p` loads that value. Where the scanner
runs out of bytes and from a stream that has run out, `p` loads some value. -/
structure Lenient (p : LoadM α) (q : ScanM α) : Prop where
  ok {bytes rest : Bytes} {a : α} : q.run bytes = .ok (a, rest) →
    p.run ⟨bytes, false⟩ = .ok (a, ⟨rest, false⟩)
  short {bytes : Bytes} : q.run bytes = .error .short → ∃ a, p.run ⟨bytes, false⟩ = .ok (a, ⟨[], true⟩)
  drained : ∃ a, p.run ⟨[], true⟩ = .ok (a, ⟨[], true⟩)

theorem Lenient.pure (a : α) : Lenient (return a) (return a) where
  ok hq := by
    cases hq
    rfl
  short hq := nomatch hq
  drained := ⟨a, rfl⟩

theorem Lenient.bind {p : LoadM α} {q : ScanM α} {f : α → LoadM β} {g : α → ScanM β} (h : Lenient p q)
    (hf : ∀ a, Lenient (f a) (g a)) : Lenient (p >>= f) (q >>= g) where
  ok hq := by
    obtain ⟨a, rest, hq, hg⟩ := bind_eq_ok hq
    rw [bind_run_ok (h.ok hq)]
    exact (hf a).ok hg
  short hq := by
    rcases bind_eq_error hq with hq | ⟨a, rest, hq, hg⟩
    · obtain ⟨a, hp⟩ := h.short hq
      rw [bind_run_ok hp]
      exact (hf a).drained
    · rw [bind_run_ok (h.ok hq)]
      exact (hf a).short hg
  drained := by
    obtain ⟨a, hp⟩ := h.drained
    rw [bind_run_ok hp]
    exact (hf a).drained

/-- The bytes of a size that is cut off spell a size that can be allocated. -/
theorem overlay_lt {stored : Bytes} (h : stored.length < 8) : leNat (overlay stored (leBytes 8 0)) < 2 ^ 63 := by
  have hzeros : leBytes 8 0 = List.replicate 8 0 := by decide
  have hlow : leNat (overlay stored (leBytes 8 0)) = leNat stored := by
    rw [overlay, hzeros, List.drop_replicate, leNat_append, leNat_zeros, Nat.mul_zero, Nat.add_zero]
  have hlt := leNat_lt stored
  have hpow : 256 ^ stored.length ≤ 256 ^ 7 := Nat.pow_le_pow_right (by decide) (by omega)
  rw [hlow]
  omega

theorem readSize_short {bytes : Bytes} (h : bytes.length < 8) :
    ∃ n < 2 ^ 63, (readSize 0).run ⟨bytes, false⟩ = .ok (n, ⟨[], true⟩) :=
  ⟨_, overlay_lt h, bind_run_ok (read_of_lt h)⟩

theorem readSize_drained : ∃ n < 2 ^ 63, (readSize 0).run ⟨[], true⟩ = .ok (n, ⟨[], true⟩) := by
  have hnil : ([] : Bytes).length < 8 := by decide
  exact ⟨_, overlay_lt hnil, rfl⟩

theorem take_short {n : Nat} {bytes : Bytes} {e : Broken} (h : (ScanM.take n).run bytes = .error e) :
    bytes.length < n := by
  simp only [StateT.run, ScanM.take] at h
  split at h
  · next hlen => exact hlen
  · cases h

theorem size_short {bytes : Bytes} {e : Broken} (h : ScanM.size.run bytes = .error e) : bytes.length < 8 := by
  rcases bind_eq_error h with htake | ⟨_, _, _, hpure⟩
  · exact take_short htake
  · cases hpure

theorem Lenient.readSize : Lenient (LoadM.readSize 0) ScanM.size where
  ok hq := by
    obtain ⟨hn, rfl⟩ := ScanM.size_eq_ok hq
    exact reads_readSize hn 0 _
  short hq := by
    obtain ⟨n, -, hrun⟩ := readSize_short (size_short hq)
    exact ⟨n, hrun⟩
  drained := by
    obtain ⟨n, -, hrun⟩ := readSize_drained
    exact ⟨n, hrun⟩

theorem Lenient.take {n : Nat} (hn : n < 2 ^ 63) : Lenient (LoadM.readString generous n) (ScanM.take n) := by
  have halloc : generous.allocates n = true := decide_eq_true hn
  refine ⟨fun {_ rest str} hq => ?_, fun hq => ?_, ?_⟩
  · obtain ⟨rfl, rfl⟩ := ScanM.take_eq_ok hq
    exact reads_readString halloc rest
  · simp only [LoadM.readString, halloc, Bool.not_true, Bool.false_eq_true, if_false]
    exact ⟨_, bind_run_ok (read_of_lt (take_short hq))⟩
  · simp only [LoadM.readString, halloc, Bool.not_true, Bool.false_eq_true, if_false]
    exact ⟨_, rfl⟩

theorem Lenient.readString :
    Lenient (do let n ← LoadM.readSize 0; LoadM.readString generous n) ScanM.string where
  ok hq := by
    obtain ⟨n, rest, hsize, hrest⟩ := bind_eq_ok hq
    rw [bind_run_ok (Lenient.readSize.ok hsize)]
    split at hrest
    · cases hrest
    · next hn => exact (Lenient.take (Nat.lt_of_not_le hn)).ok hrest
  short hq := by
    rcases bind_eq_error hq with hsize | ⟨n, rest, hsize, hrest⟩
    · obtain ⟨n, hn, hrun⟩ := readSize_short (size_short hsize)
      rw [bind_run_ok hrun]
      exact (Lenient.take hn).drained
    · rw [bind_run_ok (Lenient.readSize.ok hsize)]
      split at hrest
      · cases hrest
      · next hn => exact (Lenient.take (Nat.lt_of_not_le hn)).short hrest
  drained := by
    obtain ⟨n, hn, hrun⟩ := readSize_drained
    rw [bind_run_ok hrun]
    exact (Lenient.take hn).drained

theorem Lenient.readPair (i : Nat) : Lenient (LoadM.readPair generous i) ScanM.pair := by
  have h := Lenient.readString.bind fun key => Lenient.readString.bind fun value => Lenient.pure (key, value)
  have hsizes : generous.sizes i = (0, 0) := rfl
  simpa only [LoadM.readPair, ScanM.pair, bind_assoc, hsizes] using h

theorem Lenient.loadLoop (n i : Nat) (state : Map × Store) :
    Lenient (LoadM.loadLoop generous n i state)
      (do let ps ← ScanM.pairs n; return ps.foldl addPair state) := by
  induction n generalizing i state with
  | zero =>
    simp only [ScanM.pairs, pure_bind, List.foldl_nil]
    exact Lenient.pure state
  | succ n ih =>
    simp only [ScanM.pairs, bind_assoc, pure_bind, List.foldl_cons]
    exact (Lenient.readPair i).bind fun pair => ih (i + 1) (addPair state pair)

theorem Lenient.loadPairs (state : Map × Store) :
    Lenient (LoadM.loadPairs generous state) (do let ps ← ScanM.file; return ps.foldl addPair state) := by
  simp only [ScanM.file, bind_assoc]
  exact Lenient.readSize.bind fun n => Lenient.loadLoop n 0 state

end LoadM

/-- A file that ends before a field it announces is loaded all the same. -/
theorem openFile_short {bytes : Bytes} (h : ScanM.file.run bytes = .error .short) :
    ∃ t, Store.openFile LoadM.generous (some bytes) = .ok t := by
  obtain ⟨state, hrun⟩ := (LoadM.Lenient.loadPairs (∅, { file := some bytes })).short (bind_run_error h)
  exact ⟨Store.ofLoading state, by rw [Store.openFile_some, hrun]; rfl⟩

theorem LoadedAsEncoded.not_short {bytes : Bytes} (h : LoadedAsEncoded bytes) :
    ScanM.file.run bytes ≠ .error .short := by
  intro hshort
  obtain ⟨t, hopen⟩ := openFile_short hshort
  obtain ⟨pairs, hencodes, -⟩ := h _ t LoadM.generous_bounded hopen
  exact ScanM.not_short hencodes hshort

/-- **A file is loaded as the pairs it encodes or refused exactly when it does
not end before a field it announces: when it is complete, or when a size that
no string can have comes first.** -/
theorem loadedAsEncoded_iff (bytes : Bytes) :
    LoadedAsEncoded bytes ↔ ScanM.file.run bytes ≠ .error .short := by
  refine ⟨LoadedAsEncoded.not_short, fun hscan loader t hbounded hopen => ?_⟩
  rw [Store.openFile_some] at hopen
  have hsound := LoadM.Sound.loadPairs hbounded (∅, { file := some bytes })
  cases hload : (LoadM.loadPairs loader (∅, { file := some bytes })).run ⟨bytes, false⟩ with
  | error e =>
    rw [hload] at hopen
    cases hopen
  | ok r =>
    rw [hload] at hopen
    cases hopen
    cases hfile : ScanM.file.run bytes with
    | error broken =>
      cases broken with
      | short => exact absurd hfile hscan
      | tooLong => exact absurd hload (hsound.tooLong (bind_run_error hfile))
    | ok q =>
      cases hsound.ok (bind_run_ok hfile) hload
      have hcontent := (Store.addPairs_loaded (Store.empty_loaded (some bytes)) q.1).2
      exact ⟨q.1, ScanM.file_eq_ok hfile, hcontent⟩

/-- A file cut off after the number of its entries is loaded with an entry nobody saved. -/
theorem countOnly_not_loadedAsEncoded : ¬ LoadedAsEncoded (leBytes 8 1) :=
  fun h => h.not_short rfl

example : (Store.openFile LoadM.generous (some (leBytes 8 1))).map (fun t => t.content []) =
    .ok (some []) := rfl

/-! ### Files cut off -/

namespace ScanM

/-- More bytes at the end do not change what `q` has found. -/
structure Stable {α : Type} (q : ScanM α) : Prop where
  ok {bytes rest : Bytes} {a : α} (more : Bytes) :
    q.run bytes = .ok (a, rest) → q.run (bytes ++ more) = .ok (a, rest ++ more)
  tooLong {bytes : Bytes} (more : Bytes) :
    q.run bytes = .error .tooLong → q.run (bytes ++ more) = .error .tooLong

theorem Stable.pure {α : Type} (a : α) : Stable (return a) where
  ok more h := by
    cases h
    rfl
  tooLong more h := nomatch h

theorem Stable.bind {α β : Type} {q : ScanM α} {g : α → ScanM β} (h : Stable q) (hg : ∀ a, Stable (g a)) :
    Stable (q >>= g) where
  ok more hq := by
    obtain ⟨a, rest, hq, hrest⟩ := bind_eq_ok hq
    rw [bind_run_ok (h.ok more hq)]
    exact (hg a).ok more hrest
  tooLong more hq := by
    rcases bind_eq_error hq with hq | ⟨a, rest, hq, hrest⟩
    · exact bind_run_error (h.tooLong more hq)
    · rw [bind_run_ok (h.ok more hq)]
      exact (hg a).tooLong more hrest

theorem stable_take (n : Nat) : Stable (take n) where
  ok {_ rest a} more h := by
    obtain ⟨rfl, rfl⟩ := take_eq_ok h
    simp [StateT.run, take]
  tooLong more h := by
    simp only [StateT.run, take] at h
    split at h <;> cases h

theorem stable_string : Stable string := by
  refine ((stable_take 8).bind fun field => Stable.pure (leNat field)).bind fun n => ?_
  split
  · exact ⟨(fun _ h => nomatch h), fun _ _ => rfl⟩
  · exact stable_take n

theorem stable_pairs (n : Nat) : Stable (pairs n) := by
  induction n with
  | zero => exact Stable.pure []
  | succ n ih =>
    refine Stable.bind ?_ fun p => ih.bind fun ps => Stable.pure (p :: ps)
    exact stable_string.bind fun key => stable_string.bind fun value => Stable.pure (key, value)

theorem stable_file : Stable file :=
  ((stable_take 8).bind fun field => Stable.pure (leNat field)).bind stable_pairs

end ScanM

/-- **No strict prefix of a flush image is refused: every one is loaded by
some loader as what it does not encode.** -/
theorem image_prefix_not_loadedAsEncoded {pairs : List (Bytes × Bytes)} (hcount : pairs.length < 2 ^ 64)
    (hsizes : ∀ pair ∈ pairs, pair.1.length < 2 ^ 63 ∧ pair.2.length < 2 ^ 63) {bytes more : Bytes}
    (hmore : more ≠ []) (himage : image pairs = bytes ++ more) : ¬ LoadedAsEncoded bytes := by
  have hloadable (pair : Bytes × Bytes) (hpair : pair ∈ pairs) : LoadM.Loadable LoadM.generous pair := by
    obtain ⟨hkey, hvalue⟩ := hsizes pair hpair
    exact ⟨by omega, by omega, decide_eq_true hkey, decide_eq_true hvalue⟩
  have hload := LoadM.reads_image hcount hloadable (∅, {}) []
  have hsound := LoadM.Sound.loadPairs LoadM.generous_bounded (∅, {})
  rw [List.append_nil, himage] at hload
  intro h
  cases hscan : ScanM.file.run bytes with
  | error broken =>
    cases broken with
    | short => exact h.not_short hscan
    | tooLong => exact hsound.tooLong (bind_run_error (ScanM.stable_file.tooLong more hscan)) hload
  | ok q =>
    -- What the prefix holds in full the image holds too, with bytes left over.
    have hrest := hsound.ok (bind_run_ok (ScanM.stable_file.ok more hscan)) hload
    have hnil : [] = q.2 ++ more := congrArg IFStream.rest (congrArg Prod.snd hrest)
    exact hmore (List.append_eq_nil_iff.1 hnil.symm).2

end ConfigServer
