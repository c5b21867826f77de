/-
`immer::map`: a tree with its size. Setting an element makes a new map that
shares nodes with the old one, or changes a map in place while it is built
through a transient; in both cases the map means the finite map with the
element inserted, and `find`, `size` and iteration read that finite map.
-/
import Mathlib.Data.Finmap
import ConfigServer.ChampFacts

namespace ConfigServer

open Champ

variable {K V : Type*}

/-- The elements of the tree have distinct keys, each is where its hash says, and `size` counts them. -/
structure ImmerMap (V : Type*) (hasher : K → Hash) where
  root : Node K V maxDepth
  size : Nat
  routed : Routed hasher maxDepth 0 root
  nodupKeys : (toList maxDepth root).NodupKeys
  size_eq : size = (toList maxDepth root).length

namespace ImmerMap

variable {hasher : K → Hash}

def empty : ImmerMap V hasher where
  root := (Champ.Inner.empty : Champ.Inner (Σ _ : K, V) (Node K V (maxDepth - 1)))
  size := 0
  routed := fun i => (Champ.Inner.slot_empty i).symm ▸ .empty
  nodupKeys := List.nodupKeys_nil
  size_eq := rfl

/-- The elements in the order in which iterating over the map visits them. -/
def elements (m : ImmerMap V hasher) : List (Σ _ : K, V) := toList maxDepth m.root

/-- What a map means. -/
def toFinmap (m : ImmerMap V hasher) : Finmap fun _ : K => V := ⟨m.elements, m.nodupKeys⟩

theorem card_entries (m : ImmerMap V hasher) : m.size = m.toFinmap.entries.card := m.size_eq

variable [DecidableEq K]

def find (m : ImmerMap V hasher) (k : K) : Option V := get k maxDepth m.root (hasher k)

/-- The map after one of its elements is set, with the new root. -/
def added (m : ImmerMap V hasher) {k : K} {v : V} {root : Node K V maxDepth} {added : Bool}
    (h : Added hasher maxDepth 0 m.root ⟨k, v⟩ root added) : ImmerMap V hasher where
  root := root
  size := m.size + if added then 1 else 0
  routed := h.routed
  nodupKeys := (List.perm_nodupKeys h.perm).2 (List.kinsert_nodupKeys k v m.nodupKeys)
  size_eq := by rw [h.length, m.size_eq]

def set (m : ImmerMap V hasher) (k : K) (v : V) : ImmerMap V hasher :=
  m.added (added_doAdd maxDepth 0 m.root ⟨k, v⟩ m.routed m.nodupKeys)

/-- `set` of a transient, with what `can_mutate` answers on the way down. -/
def setMut (m : ImmerMap V hasher) (canMutate : Nat → Bool) (k : K) (v : V) : ImmerMap V hasher :=
  m.added (added_doAddMut canMutate maxDepth 0 m.root ⟨k, v⟩ m.routed m.nodupKeys)

theorem find_eq (m : ImmerMap V hasher) (k : K) : m.find k = m.toFinmap.lookup k :=
  get_eq k maxDepth 0 m.root m.routed m.nodupKeys

theorem toFinmap_added (m : ImmerMap V hasher) {k : K} {v : V} {root : Node K V maxDepth} {added : Bool}
    (h : Added hasher maxDepth 0 m.root ⟨k, v⟩ root added) : (m.added h).toFinmap = m.toFinmap.insert k v :=
  Finmap.ext (Multiset.coe_eq_coe.2 h.perm)

theorem toFinmap_set (m : ImmerMap V hasher) (k : K) (v : V) : (m.set k v).toFinmap = m.toFinmap.insert k v :=
  m.toFinmap_added _

theorem toFinmap_setMut (m : ImmerMap V hasher) (canMutate : Nat → Bool) (k : K) (v : V) :
    (m.setMut canMutate k v).toFinmap = m.toFinmap.insert k v :=
  m.toFinmap_added _

/-! ## Runs of assignments -/

/-- `set` of a map, or of a transient for which `can_mutate` answers this. -/
inductive Assign (K V : Type*)
  | set (k : K) (v : V)
  | setMut (canMutate : Nat → Bool) (k : K) (v : V)

namespace Assign

def key : Assign K V → K
  | set k _ => k
  | setMut _ k _ => k

def value : Assign K V → V
  | set _ v => v
  | setMut _ _ v => v

end Assign

def assign (m : ImmerMap V hasher) : Assign K V → ImmerMap V hasher
  | .set k v => m.set k v
  | .setMut canMutate k v => m.setMut canMutate k v

/-- The map after these assignments to an empty one. -/
def ofAssigns (hasher : K → Hash) (as : List (Assign K V)) : ImmerMap V hasher := as.foldl assign empty

/-- The value the last assignment to a key gave it. -/
def lastAssigned (k : K) (as : List (Assign K V)) : Option V :=
  (as.reverse.find? fun a => a.key = k).map Assign.value

theorem toFinmap_assign (m : ImmerMap V hasher) (a : Assign K V) :
    (m.assign a).toFinmap = m.toFinmap.insert a.key a.value := by
  cases a with
  | set k v => exact m.toFinmap_set k v
  | setMut canMutate k v => exact m.toFinmap_setMut canMutate k v

theorem lookup_ofAssigns (hasher : K → Hash) (as : List (Assign K V)) (k : K) :
    (ofAssigns hasher as).toFinmap.lookup k = lastAssigned k as := by
  induction as using List.reverseRecOn with
  | nil => rfl
  | append_singleton as a ih =>
    rw [ofAssigns, List.foldl_append, List.foldl_cons, List.foldl_nil, toFinmap_assign, lastAssigned,
      List.reverse_append, List.reverse_singleton, List.singleton_append, List.find?_cons]
    by_cases h : a.key = k
    · rw [h, Finmap.lookup_insert, decide_eq_true rfl]
      rfl
    · rw [Finmap.lookup_insert_of_ne _ (Ne.symm h), decide_eq_false h]
      exact ih

theorem isSome_lastAssigned (k : K) (as : List (Assign K V)) :
    (lastAssigned k as).isSome ↔ k ∈ as.map Assign.key := by
  rw [lastAssigned, Option.isSome_map, List.find?_isSome]
  simp

theorem keys_ofAssigns (hasher : K → Hash) (as : List (Assign K V)) :
    (ofAssigns hasher as).toFinmap.keys = (as.map Assign.key).toFinset := by
  ext k
  rw [Finmap.mem_keys, ← Finmap.lookup_isSome, lookup_ofAssigns, isSome_lastAssigned, List.mem_toFinset]

/-- **However a map was made, by copies and through transients in any order and
with keys of any hashes, `find` gives the value last set for a key, and `size`
is the number of keys.** -/
theorem ofAssigns_find (hasher : K → Hash) (as : List (Assign K V)) :
    (∀ k, (ofAssigns hasher as).find k = lastAssigned k as) ∧
      (ofAssigns hasher as).size = (as.map Assign.key).toFinset.card := by
  refine ⟨fun k => (find_eq _ k).trans (lookup_ofAssigns hasher as k), ?_⟩
  rw [card_entries, ← keys_ofAssigns hasher]
  exact (Multiset.card_map ..).symm

end ImmerMap

end ConfigServer
