/-
An array of `w` slots of which only the used ones are stored: a bitmap that
has a bit for every slot, and the items of the used slots side by side. The
place of a slot's item is the number of used slots below it.
-/
import Mathlib.Data.List.Perm.Basic
import Mathlib.Data.List.FinRange

structure SparseArray (w : Nat) (α : Type*) where
  map : BitVec w
  items : List α
  length_items : items.length = map.cpop.toNat

namespace SparseArray

variable {w : Nat} {α : Type*}

/-! ## Bitmaps -/

def bit (i : Fin w) : BitVec w := 1#w <<< i.val

/-- The used slots below slot `n`. -/
def below (map : BitVec w) (n : Nat) : Nat := map.cpopNatRec n 0

@[simp] theorem below_zero (map : BitVec w) : below map 0 = 0 := rfl

theorem below_succ (map : BitVec w) (n : Nat) : below map (n + 1) = below map n + (map.getLsbD n).toNat := by
  rw [below, BitVec.cpopNatRec_succ, BitVec.cpopNatRec_eq, Nat.zero_add, below]

theorem below_mono (map : BitVec w) {m n : Nat} (h : m ≤ n) : below map m ≤ below map n := by
  induction h with
  | refl => exact Nat.le_refl _
  | step _ ih => exact Nat.le_trans ih (by rw [below_succ]; omega)

theorem below_lt {map : BitVec w} {m n : Nat} (h : m < n) (hm : map.getLsbD m = true) :
    below map m < below map n := by
  have hs : below map (m + 1) = below map m + 1 := by rw [below_succ, hm]; rfl
  have := below_mono map (show m + 1 ≤ n from h)
  omega

theorem getLsbD_bit (i : Fin w) (n : Nat) : (bit i).getLsbD n = decide (n = i) := by
  by_cases h : n = i
  · subst h
    simp [bit, i.isLt]
  · simp only [bit, BitVec.getLsbD_shiftLeft, BitVec.getLsbD_one, h, decide_false]
    by_cases hi : n < i
    · simp [hi]
    · simp [show n - i ≠ 0 by omega]

theorem getLsbD_bit_sub_one (i : Fin w) (n : Nat) : (bit i - 1#w).getLsbD n = decide (n < i) := by
  have hle : 1 ≤ 2 ^ i.val := Nat.one_le_two_pow
  have hlt : 2 ^ i.val < 2 ^ w := Nat.pow_lt_pow_right (by omega) i.isLt
  have hw : 1 % 2 ^ w = 1 := Nat.mod_eq_of_lt (by omega)
  have hbit : (bit i).toNat = 2 ^ i.val := by
    rw [bit, BitVec.toNat_shiftLeft, BitVec.toNat_ofNat, hw, Nat.one_shiftLeft, Nat.mod_eq_of_lt hlt]
  have hone : (1#w : BitVec w) ≤ bit i := by
    rw [BitVec.le_def, hbit, BitVec.toNat_ofNat, hw]
    exact hle
  rw [← BitVec.testBit_toNat, BitVec.toNat_sub_of_le hone, hbit, BitVec.toNat_ofNat, hw,
    Nat.testBit_two_pow_sub_one]

/-- Nothing above slot `i` counts. -/
theorem below_and_sub_one (map : BitVec w) (i : Fin w) (n : Nat) :
    below (map &&& (bit i - 1#w)) n = below map (min n i) := by
  induction n with
  | zero => simp
  | succ n ih =>
    rw [below_succ, ih, BitVec.getLsbD_and, getLsbD_bit_sub_one]
    by_cases h : n < i
    · rw [Nat.min_eq_left (by omega), Nat.min_eq_left (by omega), below_succ]
      simp [h]
    · rw [Nat.min_eq_right (by omega), Nat.min_eq_right (by omega)]
      simp [h]

theorem below_or_bit {map : BitVec w} {i : Fin w} (hi : map.getLsbD i = false) (n : Nat) :
    below (map ||| bit i) n = below map n + if i < n then 1 else 0 := by
  induction n with
  | zero => simp
  | succ n ih =>
    rw [below_succ, below_succ, ih, BitVec.getLsbD_or, getLsbD_bit]
    rcases Nat.lt_trichotomy n i with h | h | h
    · simp [show ¬ i.val < n by omega, show ¬ i.val < n + 1 by omega, show n ≠ i by omega]
    · rw [h, hi]
      simp
    · simp [h, show i.val < n + 1 by omega, show n ≠ i by omega]
      omega

theorem below_bit (i : Fin w) (n : Nat) : below (bit i) n = if i < n then 1 else 0 := by
  have hzero : (0#w).getLsbD i = false := BitVec.getLsbD_zero
  have h := below_or_bit hzero n
  rwa [BitVec.zero_or, below, below, BitVec.cpopNatRec_zero, Nat.zero_add] at h

theorem below_and_not_bit {map : BitVec w} {i : Fin w} (hi : map.getLsbD i = true) (n : Nat) :
    (below (map &&& ~~~bit i) n + if i < n then 1 else 0) = below map n := by
  have hclear : (map &&& ~~~bit i).getLsbD i = false := by
    rw [BitVec.getLsbD_and, BitVec.getLsbD_not, getLsbD_bit]
    simp
  have hor : (map &&& ~~~bit i) ||| bit i = map := by
    refine BitVec.eq_of_getLsbD_eq fun k hk => ?_
    rw [BitVec.getLsbD_or, BitVec.getLsbD_and, BitVec.getLsbD_not, getLsbD_bit]
    by_cases hki : k = i
    · rw [hki, hi]
      simp
    · simp [hki, hk]
  rw [← below_or_bit hclear, hor]

/-! ## Reading -/

def has (a : SparseArray w α) (i : Fin w) : Bool := a.map &&& bit i != 0#w

/-- The used slots below a slot, counted from the bitmap. -/
def count (a : SparseArray w α) (i : Fin w) : Nat := (a.map &&& (bit i - 1#w)).cpop.toNat

/-- What a slot holds, if it is used. -/
def get? (a : SparseArray w α) (i : Fin w) : Option α := if a.has i then a.items[a.count i]? else none

theorem has_eq (a : SparseArray w α) (i : Fin w) : a.has i = a.map.getLsbD i := by
  rw [has, Bool.eq_iff_iff, bne_iff_ne]
  constructor
  · intro h
    by_contra hi
    refine h (BitVec.eq_of_getLsbD_eq fun n _ => ?_)
    rw [BitVec.getLsbD_and, getLsbD_bit, BitVec.getLsbD_zero]
    by_cases hn : n = i
    · subst hn
      simpa using hi
    · simp [hn]
  · intro hi h
    have hb := congrArg (fun m => BitVec.getLsbD m i) h
    simp only [BitVec.getLsbD_and, getLsbD_bit, hi, BitVec.getLsbD_zero] at hb
    exact absurd hb (by simp)

theorem count_eq (a : SparseArray w α) (i : Fin w) : a.count i = below a.map i := by
  rw [count, BitVec.toNat_cpop]
  exact (below_and_sub_one a.map i w).trans (by rw [Nat.min_eq_right (Nat.le_of_lt i.isLt)])

theorem length_eq (a : SparseArray w α) : a.items.length = below a.map w := by
  rw [a.length_items, BitVec.toNat_cpop, below]

theorem items_ne_nil {a : SparseArray w α} (h : a.map ≠ 0#w) : a.items ≠ [] := by
  intro hnil
  refine h (BitVec.eq_of_getLsbD_eq fun i hi => ?_)
  rw [BitVec.getLsbD_zero]
  cases hbit : a.map.getLsbD i with
  | false => rfl
  | true =>
    have hlt := Nat.lt_of_le_of_lt (Nat.zero_le _) (below_lt hi hbit)
    rw [← length_eq, hnil] at hlt
    exact absurd hlt (Nat.lt_irrefl 0)

theorem items_eq_nil {a : SparseArray w α} (h : a.map = 0#w) : a.items = [] := by
  rw [← List.length_eq_zero_iff, a.length_items, h, BitVec.cpop_zero]
  rfl

theorem count_le (a : SparseArray w α) (i : Fin w) : a.count i ≤ a.items.length := by
  rw [count_eq, length_eq]
  exact below_mono _ (Nat.le_of_lt i.isLt)

theorem count_lt {a : SparseArray w α} {i : Fin w} (h : a.has i = true) : a.count i < a.items.length := by
  rw [count_eq, length_eq]
  exact below_lt i.isLt (has_eq a i ▸ h)

/-- The item of a used slot. -/
def item (a : SparseArray w α) (i : Fin w) (h : a.has i = true) : α := a.items.get ⟨a.count i, count_lt h⟩

theorem get?_of_has {a : SparseArray w α} {i : Fin w} (h : a.has i = true) : a.get? i = some (a.item i h) := by
  rw [get?, if_pos h, List.getElem?_eq_getElem (count_lt h)]
  rfl

theorem get?_of_not_has {a : SparseArray w α} {i : Fin w} (h : a.has i = false) : a.get? i = none := by
  rw [get?, h]
  rfl

/-! ## Writing -/

def empty : SparseArray w α := ⟨0#w, [], by rw [BitVec.cpop_zero]; rfl⟩

/-- One used slot. -/
def single (i : Fin w) (x : α) : SparseArray w α where
  map := bit i
  items := [x]
  length_items := by
    rw [BitVec.toNat_cpop]
    exact ((below_bit i w).trans (if_pos i.isLt)).symm

/-- Another item in a used slot. -/
def set (a : SparseArray w α) (i : Fin w) (x : α) : SparseArray w α where
  map := a.map
  items := a.items.set (a.count i) x
  length_items := by rw [List.length_set, a.length_items]

/-- An item in an unused slot. -/
def insert (a : SparseArray w α) (i : Fin w) (x : α) (h : a.has i = false) : SparseArray w α where
  map := a.map ||| bit i
  items := a.items.insertIdx (a.count i) x
  length_items := by
    rw [List.length_insertIdx_of_le_length (a.count_le i), length_eq, BitVec.toNat_cpop]
    exact ((below_or_bit (has_eq a i ▸ h) w).trans (by rw [if_pos i.isLt])).symm

/-- A used slot emptied. -/
def erase (a : SparseArray w α) (i : Fin w) (h : a.has i = true) : SparseArray w α where
  map := a.map &&& ~~~bit i
  items := a.items.eraseIdx (a.count i)
  length_items := by
    rw [List.length_eraseIdx_of_lt (count_lt h), length_eq, BitVec.toNat_cpop]
    have hb := below_and_not_bit (has_eq a i ▸ h) w
    rw [if_pos i.isLt] at hb
    rw [below] at hb
    omega

@[simp] theorem has_empty (i : Fin w) : (empty : SparseArray w α).has i = false := by
  simp [has_eq, empty]

theorem has_single (i j : Fin w) (x : α) : (single i x).has j = decide (j = i) := by
  rw [has_eq, single, getLsbD_bit]
  simp [Fin.ext_iff]

@[simp] theorem has_set (a : SparseArray w α) (i j : Fin w) (x : α) : (a.set i x).has j = a.has j := rfl

theorem has_insert (a : SparseArray w α) (i j : Fin w) (x : α) (h : a.has i = false) :
    (a.insert i x h).has j = (a.has j || decide (j = i)) := by
  rw [has_eq, has_eq, insert, BitVec.getLsbD_or, getLsbD_bit]
  simp [Fin.ext_iff]

theorem has_erase (a : SparseArray w α) (i j : Fin w) (h : a.has i = true) :
    (a.erase i h).has j = (a.has j && decide (j ≠ i)) := by
  rw [has_eq, has_eq, erase, BitVec.getLsbD_and, BitVec.getLsbD_not, getLsbD_bit]
  simp [Fin.ext_iff]

/-- Used slots are in the order of their items. -/
theorem count_lt_count {a : SparseArray w α} {i j : Fin w} (hi : a.has i = true) (h : i < j) :
    a.count i < a.count j := by
  rw [count_eq, count_eq]
  exact below_lt h (has_eq a i ▸ hi)

theorem count_le_count (a : SparseArray w α) {i j : Fin w} (h : i ≤ j) : a.count i ≤ a.count j := by
  rw [count_eq, count_eq]
  exact below_mono _ h

theorem count_inj {a : SparseArray w α} {i j : Fin w} (hi : a.has i = true) (hj : a.has j = true)
    (h : a.count i = a.count j) : i = j := by
  rcases lt_trichotomy i j with hij | hij | hij
  · exact absurd h (Nat.ne_of_lt (count_lt_count hi hij))
  · exact hij
  · exact absurd h.symm (Nat.ne_of_lt (count_lt_count hj hij))

@[simp] theorem get?_empty (i : Fin w) : (empty : SparseArray w α).get? i = none :=
  get?_of_not_has (has_empty i)

theorem get?_single (i : Fin w) (x : α) (j : Fin w) : (single i x).get? j = if j = i then some x else none := by
  have hcount : (single i x).count i = 0 :=
    (count_eq _ _).trans ((below_bit i i).trans (if_neg (Nat.lt_irrefl _)))
  rw [get?, has_single]
  by_cases hj : j = i
  · rw [decide_eq_true hj, if_pos rfl, if_pos hj, hj, hcount]
    rfl
  · rw [decide_eq_false hj, if_neg Bool.false_ne_true, if_neg hj]

theorem get?_set {a : SparseArray w α} {i : Fin w} (h : a.has i = true) (x : α) (j : Fin w) :
    (a.set i x).get? j = if j = i then some x else a.get? j := by
  have hc : (a.set i x).count j = a.count j := rfl
  rw [get?, get?, has_set, hc, set, List.getElem?_set]
  by_cases hj : j = i
  · subst hj
    simp [h, count_lt h]
  · cases hhas : a.has j with
    | false => simp [hj]
    | true =>
      have hne : a.count i ≠ a.count j := fun he => hj (count_inj h hhas he).symm
      rw [if_pos rfl, if_neg hj, if_neg hne, if_pos rfl]

theorem count_insert (a : SparseArray w α) (i j : Fin w) (x : α) (h : a.has i = false) :
    (a.insert i x h).count j = a.count j + if i < j then 1 else 0 := by
  rw [count_eq, count_eq, insert, below_or_bit (has_eq a i ▸ h)]
  simp only [Fin.lt_def]

theorem get?_insert (a : SparseArray w α) (i : Fin w) (x : α) (h : a.has i = false) (j : Fin w) :
    (a.insert i x h).get? j = if j = i then some x else a.get? j := by
  rw [get?, get?, has_insert, count_insert, insert, List.getElem?_insertIdx]
  rcases lt_trichotomy j i with hj | hj | hj
  · cases hhas : a.has j with
    | false => simp [hj.ne]
    | true => simp [hj.ne, hj.not_gt, count_lt_count hhas hj]
  · subst hj
    simp [a.count_le]
  · have hle := a.count_le_count hj.le
    cases hhas : a.has j with
    | false => simp [hj.ne']
    | true =>
      simp only [hj, hj.ne', if_true, if_false, decide_false, Bool.or_false]
      rw [if_neg (by omega), if_neg (by omega), Nat.add_sub_cancel]

theorem count_erase (a : SparseArray w α) (i j : Fin w) (h : a.has i = true) :
    ((a.erase i h).count j + if i < j then 1 else 0) = a.count j := by
  rw [count_eq, count_eq]
  exact below_and_not_bit (has_eq a i ▸ h) j

theorem get?_erase (a : SparseArray w α) (i : Fin w) (h : a.has i = true) (j : Fin w) :
    (a.erase i h).get? j = if j = i then none else a.get? j := by
  have hc := count_erase a i j h
  rw [get?, get?, has_erase, erase, List.getElem?_eraseIdx]
  rcases lt_trichotomy j i with hj | hj | hj
  · rw [if_neg hj.not_gt, Nat.add_zero] at hc
    cases hhas : a.has j with
    | false => simp [hj.ne]
    | true => simp only [erase] at hc; simp [hj.ne, hc, count_lt_count hhas hj]
  · simp [hj]
  · rw [if_pos hj] at hc
    have hlt := count_lt_count h hj
    cases hhas : a.has j with
    | false => simp [hj.ne']
    | true =>
      simp only [erase] at hc
      simp only [hj.ne', ne_eq, not_false_eq_true, decide_true, Bool.and_true, if_true, if_false]
      rw [if_neg (by omega), hc]

/-! ## Items -/

theorem perm_insert (a : SparseArray w α) (i : Fin w) (x : α) (h : a.has i = false) :
    (a.insert i x h).items.Perm (x :: a.items) :=
  List.perm_insertIdx x a.items (a.count_le i)

/-- The items stand in the order of their slots. -/
theorem items_eq (a : SparseArray w α) : a.items = (List.finRange w).filterMap a.get? := by
  suffices h : ∀ n ≤ w, a.items.take (below a.map n) = ((List.finRange w).take n).filterMap a.get? by
    have hw := h w (Nat.le_refl w)
    rwa [← length_eq, List.take_length, List.take_of_length_le (by rw [List.length_finRange])] at hw
  intro n hn
  induction n with
  | zero => rfl
  | succ n ih =>
    let i : Fin w := ⟨n, hn⟩
    have hi : (List.finRange w)[n]? = some i := by
      rw [List.getElem?_eq_getElem (by rw [List.length_finRange]; exact hn), List.getElem_finRange]
      rfl
    have hcount : a.count i = below a.map n := count_eq a i
    rw [List.take_add_one, hi, List.filterMap_append, ← ih (Nat.le_of_succ_le hn), below_succ]
    cases hhas : a.has i with
    | true =>
      have hlt := count_lt hhas
      have hitem : a.items[a.count i]? = some (a.item i hhas) := List.getElem?_eq_getElem hlt
      rw [show a.map.getLsbD n = true from has_eq a i ▸ hhas, Bool.toNat_true, List.take_add_one,
        ← hcount, hitem]
      simp [get?_of_has hhas]
    | false =>
      rw [show a.map.getLsbD n = false from has_eq a i ▸ hhas]
      simp [get?_of_not_has hhas]

end SparseArray
