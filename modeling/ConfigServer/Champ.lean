/-
The tree below `immer::map`, a `champ`: every inner node looks at the next
five bits of the hash of a key and holds, for each value of them, an element,
a child or nothing. Elements whose hashes agree in all bits end up together in
a collision node below the last level.

A node is read as its `data_t` is, a collision at `max_shift` and an inner
node above it, so the type of a node says how many levels are below it.
Reference counts and the owner marks of a transient are left out: what
`can_mutate` answers at each shift is a parameter of the operations that ask.
The number of elements of a collision is the length of its list; the 32 bits of
`collision_count` hold it as long as fewer than 2^32 keys have one hash.
-/
import Mathlib.Data.List.Sigma
import ConfigServer.Lib.SparseArray

namespace ConfigServer

namespace Champ

/-- A `std::size_t`. -/
abbrev Hash := BitVec 64

/-- `B`. -/
abbrev bits : Nat := 5

abbrev branches : Nat := 1 <<< bits

def mask : Hash := 31#64

def maxDepth : Nat := (64 + bits - 1) / bits

theorem getLsbD_mask (k : Nat) : mask.getLsbD k = decide (k < bits) := by
  by_cases h : k < 5
  · have hk : k = 0 ∨ k = 1 ∨ k = 2 ∨ k = 3 ∨ k = 4 := by omega
    rcases hk with rfl | rfl | rfl | rfl | rfl <;> rfl
  · have hlt : mask.toNat < 2 ^ k :=
      Nat.lt_of_lt_of_le (by decide : 31 < 2 ^ 5) (Nat.pow_le_pow_right (by decide) (by omega))
    rw [← BitVec.testBit_toNat, Nat.testBit_lt_two_pow hlt, decide_eq_false (show ¬ k < bits from h)]

/-- The bits of `(hash & (mask << shift)) >> shift`. -/
theorem getLsbD_part (hash : Hash) (shift k : Nat) :
    ((hash &&& mask <<< shift) >>> shift).getLsbD k = (decide (k < bits) && hash.getLsbD (shift + k)) := by
  rw [BitVec.getLsbD_ushiftRight, BitVec.getLsbD_and, BitVec.getLsbD_shiftLeft, getLsbD_mask,
    Nat.add_sub_cancel_left]
  by_cases h : shift + k < 64
  · simp [h, show ¬ shift + k < shift by omega, Bool.and_comm]
  · simp [BitVec.getLsbD_of_ge hash (shift + k) (by omega)]

/-- `(hash & (mask << shift)) >> shift`. -/
def idx (hash : Hash) (shift : Nat) : Fin branches :=
  ⟨((hash &&& mask <<< shift) >>> shift).toNat, by
    show _ < 2 ^ 5
    refine Nat.lt_pow_two_of_testBit _ fun k hk => ?_
    rw [BitVec.testBit_toNat, getLsbD_part, decide_eq_false (Nat.not_lt_of_le hk), Bool.false_and]⟩

theorem idx_eq_iff {hash hash' : Hash} {shift : Nat} :
    idx hash shift = idx hash' shift ↔ ∀ k < bits, hash.getLsbD (shift + k) = hash'.getLsbD (shift + k) := by
  rw [idx, idx, Fin.mk.injEq, BitVec.toNat_inj]
  constructor
  · intro h k hk
    have hbit := congrArg (fun x => BitVec.getLsbD x k) h
    simpa only [getLsbD_part, decide_eq_true hk, Bool.true_and] using hbit
  · intro h
    refine BitVec.eq_of_getLsbD_eq fun k _ => ?_
    rw [getLsbD_part, getLsbD_part]
    by_cases hk : k < bits
    · rw [h k hk]
    · rw [decide_eq_false hk, Bool.false_and, Bool.false_and]

/-- Two hashes with different bits under the mask have different bits above `shift`. -/
theorem idx_ne {hash hash' : Hash} {shift : Nat}
    (h : hash &&& mask <<< shift ≠ hash' &&& mask <<< shift) : idx hash shift ≠ idx hash' shift := by
  intro he
  refine h (BitVec.eq_of_getLsbD_eq fun k _ => ?_)
  rw [BitVec.getLsbD_and, BitVec.getLsbD_and, BitVec.getLsbD_shiftLeft, getLsbD_mask]
  by_cases hlt : k < shift
  · simp [hlt]
  · by_cases hk : k - shift < bits
    · have hbit := idx_eq_iff.1 he (k - shift) hk
      rw [show shift + (k - shift) = k by omega] at hbit
      rw [hbit]
    · simp [hk]

/-! ## Nodes -/

/-- An inner node: its `datamap` and `values`, its `nodemap` and `children`. -/
structure Inner (T C : Type*) where
  data : SparseArray branches T
  nodes : SparseArray branches C
  disjoint : ∀ i, data.has i = true → nodes.has i = false

variable {K V : Type*}

/-- A node with this many levels below it. A collision is as long as its `collision_count` says. -/
def Node (K V : Type*) : Nat → Type _
  | 0 => List (Σ _ : K, V)
  | n + 1 => Inner (Σ _ : K, V) (Node K V n)

namespace Inner

variable {T C : Type*}

/-- The root of an empty tree, `make_inner_n(0)`. -/
def empty : Inner T C where
  data := .empty
  nodes := .empty
  disjoint := fun _ _ => SparseArray.has_empty _

/-- `make_inner_n(1, idx, child)`. -/
def ofChild (i : Fin branches) (child : C) : Inner T C where
  data := .empty
  nodes := .single i child
  disjoint := fun j h => absurd h (by rw [SparseArray.has_empty]; exact Bool.false_ne_true)

/-- `make_inner_n(0, idx1, x1, idx2, x2)`: the element of the lower index comes first. -/
def ofPair (i : Fin branches) (x : T) (j : Fin branches) (y : T) (h : i ≠ j) : Inner T C where
  data := (SparseArray.single i x).insert j y (by rw [SparseArray.has_single, decide_eq_false h.symm])
  nodes := .empty
  disjoint := fun _ _ => SparseArray.has_empty _

def copyInnerReplace (src : Inner T C) (i : Fin branches) (child : C) : Inner T C where
  data := src.data
  nodes := src.nodes.set i child
  disjoint := src.disjoint

def copyInnerReplaceValue (src : Inner T C) (i : Fin branches) (v : T) : Inner T C where
  data := src.data.set i v
  nodes := src.nodes
  disjoint := src.disjoint

def copyInnerReplaceMerged (src : Inner T C) (i : Fin branches) (h : src.data.has i = true) (node : C) :
    Inner T C where
  data := src.data.erase i h
  nodes := src.nodes.insert i node (src.disjoint i h)
  disjoint := fun j hj => by
    rw [SparseArray.has_erase, Bool.and_eq_true, decide_eq_true_iff] at hj
    rw [SparseArray.has_insert, src.disjoint j hj.1, decide_eq_false hj.2, Bool.false_or]

def copyInnerInsertValue (src : Inner T C) (i : Fin branches) (hn : src.nodes.has i = false)
    (hd : src.data.has i = false) (v : T) : Inner T C where
  data := src.data.insert i v hd
  nodes := src.nodes
  disjoint := fun j hj => by
    rw [SparseArray.has_insert, Bool.or_eq_true, decide_eq_true_iff] at hj
    rcases hj with hj | rfl
    · exact src.disjoint j hj
    · exact hn

end Inner

/-- The new element comes first. -/
def copyCollisionInsert (src : Node K V 0) (v : Σ _ : K, V) : Node K V 0 := v :: src

/-- The new element comes first here too, and the one it replaces goes. -/
def copyCollisionReplace (src : Node K V 0) (pos : Nat) (v : Σ _ : K, V) : Node K V 0 :=
  v :: (List.take pos src ++ List.drop (pos + 1) src)

/-- A node for two elements with different keys, from the first level on where their hashes differ. -/
def makeMerged : (n : Nat) → Nat → (Σ _ : K, V) → Hash → (Σ _ : K, V) → Hash → Node K V n
  | 0, _, v1, _, v2, _ => [v1, v2]
  | n + 1, shift, v1, hash1, v2, hash2 =>
    if h : hash1 &&& mask <<< shift = hash2 &&& mask <<< shift then
      Inner.ofChild (idx hash1 shift) (makeMerged n (shift + bits) v1 hash1 v2 hash2)
    else
      Inner.ofPair (idx hash1 shift) v1 (idx hash2 shift) v2 (idx_ne h)

/-- The elements below a node: its own, then those of its children from left to right. -/
def toList : (n : Nat) → Node K V n → List (Σ _ : K, V)
  | 0, node => node
  | n + 1, (node : Inner (Σ _ : K, V) (Node K V n)) => node.data.items ++ node.nodes.items.flatMap (toList n)

/-! ## Operations -/

variable [DecidableEq K]

/-- The loop of `get`, from a node on, with what is left of the hash. -/
def get (k : K) : (n : Nat) → Node K V n → Hash → Option V
  | 0, node, _ => (List.find? (fun val => val.1 = k) node).map (·.2)
  | n + 1, (node : Inner (Σ _ : K, V) (Node K V n)), hash =>
    let i := idx hash 0
    if hn : node.nodes.has i = true then
      get k n (node.nodes.item i hn) (hash >>> bits)
    else if hd : node.data.has i = true then
      let val := node.data.item i hd
      if val.1 = k then some val.2 else none
    else
      none

variable (hasher : K → Hash)

/-- `do_add`: the new node, and whether there is an element more. -/
def doAdd : (n : Nat) → Node K V n → (Σ _ : K, V) → Hash → Nat → Node K V n × Bool
  | 0, node, v, _, _ =>
    match List.findIdx? (fun val => val.1 = v.1) node with
    | some pos => (copyCollisionReplace node pos v, false)
    | none => (copyCollisionInsert node v, true)
  | n + 1, (node : Inner (Σ _ : K, V) (Node K V n)), v, hash, shift =>
    let i := idx hash shift
    if hn : node.nodes.has i = true then
      let result := doAdd n (node.nodes.item i hn) v hash (shift + bits)
      (node.copyInnerReplace i result.1, result.2)
    else if hd : node.data.has i = true then
      let val := node.data.item i hd
      if val.1 = v.1 then
        (node.copyInnerReplaceValue i v, false)
      else
        let child := makeMerged n (shift + bits) v hash val (hasher val.1)
        (node.copyInnerReplaceMerged i hd child, true)
    else
      (node.copyInnerInsertValue i (Bool.eq_false_of_not_eq_true hn) (Bool.eq_false_of_not_eq_true hd) v, true)

/-- `do_add_mut`: the new node, whether there is an element more, and whether
the new node is the old one, changed in place. Below a node that is shared
nothing is changed in place. -/
def doAddMut (canMutate : Nat → Bool) :
    (n : Nat) → Node K V n → (Σ _ : K, V) → Hash → Nat → Node K V n × Bool × Bool
  | 0, node, v, _, shift =>
    match List.findIdx? (fun val => val.1 = v.1) node with
    | some pos =>
      if canMutate shift then
        (List.set node pos v, false, true)
      else
        (copyCollisionReplace node pos v, false, false)
    | none => (copyCollisionInsert node v, true, canMutate shift)
  | n + 1, (node : Inner (Σ _ : K, V) (Node K V n)), v, hash, shift =>
    let i := idx hash shift
    if hn : node.nodes.has i = true then
      let child := node.nodes.item i hn
      if canMutate shift then
        let result := doAddMut canMutate n child v hash (shift + bits)
        (node.copyInnerReplace i result.1, result.2.1, true)
      else
        let result := doAdd hasher n child v hash (shift + bits)
        (node.copyInnerReplace i result.1, result.2, false)
    else if hd : node.data.has i = true then
      let val := node.data.item i hd
      if val.1 = v.1 then
        (node.copyInnerReplaceValue i v, false, canMutate shift)
      else
        let child := makeMerged n (shift + bits) v hash val (hasher val.1)
        (node.copyInnerReplaceMerged i hd child, true, canMutate shift)
    else
      (node.copyInnerInsertValue i (Bool.eq_false_of_not_eq_true hn) (Bool.eq_false_of_not_eq_true hd) v,
        true, canMutate shift)

end Champ

end ConfigServer
