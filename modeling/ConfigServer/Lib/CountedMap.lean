/-
A map that counts: every key has a value, the number of gets that found it
and the number of sets it was given, and the map the totals over all keys.
A run of the map is compared with what can be read off its history, the list
of operations performed: the last value set, the gets that came after a set,
the sets.
-/
import Mathlib.Logic.Function.Basic
import Mathlib.Data.List.Basic

structure CountedMap.Cell (ν : Type*) where
  value : ν
  reads : Nat := 0
  writes : Nat := 0

inductive CountedMap.Op (κ ν : Type*)
  | set (key : κ) (value : ν)
  | get (key : κ)

structure CountedMap (κ ν : Type*) where
  cells : κ → Option (CountedMap.Cell ν)
  gets : Nat := 0
  sets : Nat := 0

namespace CountedMap

variable {κ ν : Type*}

def ofContent (content : κ → Option ν) : CountedMap κ ν :=
  { cells := fun key => (content key).map fun value => { value } }

def content (m : CountedMap κ ν) (key : κ) : Option ν := (m.cells key).map Cell.value

def readsOf (m : CountedMap κ ν) (key : κ) : Nat := (m.cells key).elim 0 Cell.reads

def writesOf (m : CountedMap κ ν) (key : κ) : Nat := (m.cells key).elim 0 Cell.writes

theorem cells_eq (m : CountedMap κ ν) (key : κ) :
    m.cells key = (m.content key).map fun value => ⟨value, m.readsOf key, m.writesOf key⟩ := by
  cases h : m.cells key <;> simp [content, readsOf, writesOf, h]

theorem ofContent_content (content : κ → Option ν) : (ofContent content).content = content := by
  funext key
  cases h : content key <;> simp [CountedMap.content, ofContent, h]

variable [DecidableEq κ]

def set (m : CountedMap κ ν) (key : κ) (value : ν) : CountedMap κ ν :=
  { m with
    cells := Function.update m.cells key (some ⟨value, m.readsOf key, m.writesOf key + 1⟩)
    sets := m.sets + 1 }

def get (m : CountedMap κ ν) (key : κ) : CountedMap κ ν :=
  match m.cells key with
  | none => m
  | some cell =>
    { m with
      cells := Function.update m.cells key (some { cell with reads := cell.reads + 1 })
      gets := m.gets + 1 }

def apply (m : CountedMap κ ν) : Op κ ν → CountedMap κ ν
  | .set key value => m.set key value
  | .get key => m.get key

def run (m : CountedMap κ ν) (ops : List (Op κ ν)) : CountedMap κ ν := ops.foldl apply m

/-! ## Histories -/

/-- The value of a key after a history, when it had `value` before. -/
def lastValue (key : κ) : Option ν → List (Op κ ν) → Option ν
  | value, [] => value
  | value, .set key' value' :: ops => lastValue key (if key' = key then some value' else value) ops
  | value, .get _ :: ops => lastValue key value ops

/-- The gets of a key that found it. -/
def foundGets (key : κ) : Option ν → List (Op κ ν) → Nat
  | _, [] => 0
  | value, .set key' value' :: ops => foundGets key (if key' = key then some value' else value) ops
  | value, .get key' :: ops => (if key' = key ∧ value.isSome then 1 else 0) + foundGets key value ops

/-- The gets that found their key. -/
def allFound : (κ → Option ν) → List (Op κ ν) → Nat
  | _, [] => 0
  | content, .set key value :: ops => allFound (fun k => if key = k then some value else content k) ops
  | content, .get key :: ops => (if (content key).isSome then 1 else 0) + allFound content ops

def Op.isSetOf (key : κ) : Op κ ν → Bool
  | .set key' _ => key' = key
  | .get _ => false

def Op.isSet : Op κ ν → Bool
  | .set _ _ => true
  | .get _ => false

def setsOf (key : κ) (ops : List (Op κ ν)) : Nat := ops.countP (Op.isSetOf key)

/-! ## One operation -/

variable (m : CountedMap κ ν) (key key' : κ) (value : ν)

theorem set_content : (m.set key value).content key' = if key = key' then some value else m.content key' := by
  by_cases hk : key' = key
  · simp [content, set, hk]
  · simp [content, set, Function.update_of_ne hk, Ne.symm hk]

theorem set_readsOf : (m.set key value).readsOf key' = m.readsOf key' := by
  by_cases hk : key' = key
  · simp [readsOf, set, hk]
  · simp [readsOf, set, Function.update_of_ne hk]

theorem set_writesOf :
    (m.set key value).writesOf key' = m.writesOf key' + if key = key' then 1 else 0 := by
  by_cases hk : key' = key
  · simp [writesOf, set, hk]
  · simp [writesOf, set, Function.update_of_ne hk, Ne.symm hk]

theorem get_content : (m.get key).content = m.content := by
  funext k
  unfold get
  split
  · rfl
  · next cell hcell =>
    by_cases hk : k = key
    · simp [content, hk, hcell]
    · simp [content, Function.update_of_ne hk]

theorem get_writesOf : (m.get key).writesOf key' = m.writesOf key' := by
  unfold get
  split
  · rfl
  · next cell hcell =>
    by_cases hk : key' = key
    · simp [writesOf, hk, hcell]
    · simp [writesOf, Function.update_of_ne hk]

theorem get_readsOf :
    (m.get key).readsOf key' = m.readsOf key' + if key = key' ∧ (m.content key').isSome then 1 else 0 := by
  unfold get
  split
  · next hnone =>
    have hif : ¬ (key = key' ∧ (m.content key').isSome) := by
      rintro ⟨rfl, h⟩
      simp [content, hnone] at h
    rw [if_neg hif, Nat.add_zero]
  · next cell hcell =>
    by_cases hk : key' = key
    · subst hk
      simp [readsOf, content, hcell]
    · simp [readsOf, Function.update_of_ne hk, Ne.symm hk]

theorem get_gets : (m.get key).gets = m.gets + if (m.content key).isSome then 1 else 0 := by
  unfold get
  split
  · next hnone => simp [content, hnone]
  · next cell hcell => simp [content, hcell]

theorem get_sets : (m.get key).sets = m.sets := by
  unfold get
  split <;> rfl

/-! ## Runs -/

variable (ops : List (Op κ ν))

theorem run_cons (op : Op κ ν) : m.run (op :: ops) = (m.apply op).run ops := rfl

theorem run_append (ops' : List (Op κ ν)) : m.run (ops ++ ops') = (m.run ops).run ops' := List.foldl_append

theorem run_content : (m.run ops).content key = lastValue key (m.content key) ops := by
  induction ops generalizing m with
  | nil => rfl
  | cons op ops ih =>
    rw [run_cons, ih]
    cases op with
    | set key' value => rw [apply, set_content, lastValue]
    | get key' => rw [apply, get_content, lastValue]

theorem run_readsOf : (m.run ops).readsOf key = m.readsOf key + foundGets key (m.content key) ops := by
  induction ops generalizing m with
  | nil => rfl
  | cons op ops ih =>
    rw [run_cons, ih]
    cases op with
    | set key' value => rw [apply, set_content, set_readsOf, foundGets]
    | get key' => rw [apply, get_content, get_readsOf, foundGets, Nat.add_assoc]

theorem run_writesOf : (m.run ops).writesOf key = m.writesOf key + setsOf key ops := by
  induction ops generalizing m with
  | nil => rfl
  | cons op ops ih =>
    rw [run_cons, ih]
    cases op with
    | set key' value =>
      rw [apply, set_writesOf, setsOf, setsOf, List.countP_cons, Nat.add_assoc,
        Nat.add_comm (List.countP _ _)]
      simp only [Op.isSetOf, decide_eq_true_eq]
    | get key' =>
      rw [apply, get_writesOf, setsOf, setsOf, List.countP_cons]
      simp only [Op.isSetOf, Bool.false_eq_true, if_false, Nat.add_zero]

theorem run_gets : (m.run ops).gets = m.gets + allFound m.content ops := by
  induction ops generalizing m with
  | nil => rfl
  | cons op ops ih =>
    rw [run_cons, ih]
    cases op with
    | set key' value =>
      have hcontent : (m.set key' value).content = fun k => if key' = k then some value else m.content k :=
        funext fun k => m.set_content key' k value
      rw [apply, hcontent, allFound]
      rfl
    | get key' => rw [apply, get_content, get_gets, allFound, Nat.add_assoc]

theorem run_sets : (m.run ops).sets = m.sets + ops.countP Op.isSet := by
  induction ops generalizing m with
  | nil => rfl
  | cons op ops ih =>
    rw [run_cons, ih, List.countP_cons]
    cases op with
    | set key' value =>
      simp only [apply, set, Op.isSet, if_true]
      omega
    | get key' =>
      rw [apply, get_sets]
      simp only [Op.isSet, Bool.false_eq_true, if_false, Nat.add_zero]

/-- What a map with no counts yet holds after a history. -/
theorem run_ofContent_cells (content : κ → Option ν) :
    ((ofContent content).run ops).cells key = (lastValue key (content key) ops).map fun value =>
      ⟨value, foundGets key (content key) ops, setsOf key ops⟩ := by
  have hreads : (ofContent content).readsOf key = 0 := by
    cases h : content key <;> simp [readsOf, ofContent, h]
  have hwrites : (ofContent content).writesOf key = 0 := by
    cases h : content key <;> simp [writesOf, ofContent, h]
  rw [cells_eq, run_content, run_readsOf, run_writesOf, ofContent_content, hreads, hwrites, Nat.zero_add,
    Nat.zero_add]

/-- One more get finds the key if the history leaves it with a value. -/
theorem foundGets_get (value? : Option ν) :
    foundGets key value? (ops ++ [.get key]) =
      foundGets key value? ops + if (lastValue key value? ops).isSome then 1 else 0 := by
  induction ops generalizing value? with
  | nil => cases value? <;> simp [foundGets, lastValue]
  | cons op ops ih =>
    cases op with
    | set key' value => exact ih _
    | get key' =>
      rw [List.cons_append, foundGets, foundGets, lastValue, ih, Nat.add_assoc]

/-- No more gets find a key than were performed. -/
theorem foundGets_le (value? : Option ν) : foundGets key value? ops ≤ ops.length := by
  induction ops generalizing value? with
  | nil => exact Nat.le_refl _
  | cons op ops ih =>
    cases op with
    | set key' value => exact Nat.le_succ_of_le (ih _)
    | get key' =>
      have h := ih value?
      rw [foundGets, List.length_cons]
      split <;> omega

end CountedMap
