/-
`champ_iterator`: a path from the root to a node and a range of elements of
that node. Moving on, it leaves an empty range for the first child of its
node or, where there is none, for the next child of the nearest ancestor that
has one. Iterating visits the elements of a map one after the other.
-/
import ConfigServer.ImmerMap

namespace ConfigServer

namespace Champ

open List

variable {K V : Type*} {top : Nat}

/-- `path_`: the nodes from the root down, each with its place among the children of the one before. -/
inductive Path (K V : Type*) (top : Nat) : Nat → Type _
  | root (node : Node K V top) : Path K V top top
  | child {n : Nat} (parent : Path K V top (n + 1)) (offset : Nat) (node : Node K V n) : Path K V top n

namespace Path

/-- The node it ends at, `*path_[depth_]`. -/
def node {n : Nat} : Path K V top n → Node K V n
  | root node => node
  | child _ _ node => node

@[simp] theorem node_child {n : Nat} (parent : Path K V top (n + 1)) (offset : Nat) (node : Node K V n) :
    (parent.child offset node).node = node := rfl

def nodemap {n : Nat} (path : Path K V top (n + 1)) : BitVec branches :=
  (path.node : Inner (Σ _ : K, V) (Node K V n)).nodes.map

def children {n : Nat} (path : Path K V top (n + 1)) : List (Node K V n) :=
  (path.node : Inner (Σ _ : K, V) (Node K V n)).nodes.items

theorem children_pos {n : Nat} {path : Path K V top (n + 1)} (h : path.nodemap ≠ 0) :
    0 < path.children.length :=
  List.length_pos_of_ne_nil (SparseArray.items_ne_nil h)

theorem children_nil {n : Nat} {path : Path K V top (n + 1)} (h : path.nodemap = 0) :
    path.children = [] :=
  SparseArray.items_eq_nil h

end Path

/-- An iterator that is not at the end: its path, whose last node has `n` levels below
it, and the elements from `cur_` to `end_`. -/
structure Iter (K V : Type*) (top : Nat) where
  n : Nat
  path : Path K V top n
  cur : List (Σ _ : K, V)

namespace Iter

/-- `cur_` and `end_` when the iterator comes to a node: an inner node without elements leaves them alone. -/
def enter (cur : List (Σ _ : K, V)) : (n : Nat) → Node K V n → List (Σ _ : K, V)
  | 0, node => node
  | _ + 1, (node : Inner (Σ _ : K, V) (Node K V _)) => if node.data.map ≠ 0 then node.data.items else cur

def stepDown : Iter K V top → Option (Iter K V top)
  | ⟨0, _, _⟩ => none
  | ⟨n + 1, path, cur⟩ =>
    if h : path.nodemap ≠ 0 then
      let child := path.children.get ⟨0, Path.children_pos h⟩
      some ⟨n, path.child 0 child, enter cur n child⟩
    else
      none

/-- `step_right`, from the end of a path on. -/
def stepRight (cur : List (Σ _ : K, V)) : {n : Nat} → Path K V top n → Option (Iter K V top)
  | _, .root _ => none
  | n, .child parent offset _ =>
    let next := offset + 1
    if h : next < parent.children.length then
      let child := parent.children.get ⟨next, h⟩
      some ⟨n, parent.child next child, enter cur n child⟩
    else
      stepRight cur parent

/-! ## What is left to visit -/

/-- The nodes below a node. -/
def nodesBelow : (n : Nat) → Node K V n → Nat
  | 0, _ => 0
  | n + 1, (node : Inner (Σ _ : K, V) (Node K V n)) =>
    node.nodes.items.foldr (fun child count => nodesBelow n child + 1 + count) 0

/-- The nodes to the right of a path. -/
def nodesRight : {n : Nat} → Path K V top n → Nat
  | _, .root _ => 0
  | n, .child parent offset _ =>
    (parent.children.drop (offset + 1)).foldr (fun child count => nodesBelow n child + 1 + count) 0 +
      nodesRight parent

/-- The nodes the iterator has not come to. -/
def unvisited (it : Iter K V top) : Nat := nodesBelow it.n it.path.node + nodesRight it.path

theorem nodesBelow_node {n : Nat} (path : Path K V top (n + 1)) :
    nodesBelow (n + 1) path.node =
      path.children.foldr (fun child count => nodesBelow n child + 1 + count) 0 := rfl

theorem unvisited_stepDown {it it' : Iter K V top} (h : it.stepDown = some it') :
    it'.unvisited < it.unvisited := by
  obtain ⟨_ | n, path, cur⟩ := it
  · exact absurd h (Option.some_ne_none it').symm
  · simp only [stepDown] at h
    split at h
    · rename_i hmap
      cases h
      have hsum := congrArg (List.foldr (fun child count => nodesBelow n child + 1 + count) 0)
        (List.drop_eq_getElem_cons (Path.children_pos hmap))
      simp only [List.drop_zero, List.foldr_cons] at hsum
      simp only [unvisited, nodesRight, Path.node_child, nodesBelow_node, List.get_eq_getElem, hsum]
      omega
    · exact absurd h (Option.some_ne_none it').symm

theorem unvisited_stepRight {cur : List (Σ _ : K, V)} {n : Nat} {path : Path K V top n} {it' : Iter K V top}
    (h : stepRight cur path = some it') : it'.unvisited < nodesRight path := by
  induction path with
  | root node => exact absurd h (Option.some_ne_none it').symm
  | child parent offset node ih =>
    rw [stepRight] at h
    split at h
    · rename_i hnext
      cases h
      simp only [unvisited, nodesRight, Path.node_child]
      rw [List.drop_eq_getElem_cons hnext]
      simp only [List.foldr_cons, List.get_eq_getElem]
      omega
    · exact Nat.lt_of_lt_of_le (ih h) (Nat.le_add_left _ _)

/-- `ensure_valid_`: the iterator moved on to the next element, or `none` at the end of the sequence. -/
def ensureValid (it : Iter K V top) : Option (Iter K V top) :=
  if it.cur ≠ [] then
    some it
  else
    match _hd : it.stepDown with
    | some it' => ensureValid it'
    | none =>
      match _hr : stepRight it.cur it.path with
      | some it' => ensureValid it'
      | none => none
termination_by it.unvisited
decreasing_by
  · exact unvisited_stepDown _hd
  · exact Nat.lt_of_lt_of_le (unvisited_stepRight _hr) (Nat.le_add_left _ _)

/-- The elements below a node that are not its own. -/
def below : (n : Nat) → Node K V n → List (Σ _ : K, V)
  | 0, _ => []
  | n + 1, (node : Inner (Σ _ : K, V) (Node K V n)) => node.nodes.items.flatMap (toList n)

/-- The elements to the right of a path. -/
def right : {n : Nat} → Path K V top n → List (Σ _ : K, V)
  | _, .root _ => []
  | n, .child parent offset _ => (parent.children.drop (offset + 1)).flatMap (toList n) ++ right parent

/-- The elements the iterator has still to visit, the one it is at first. -/
def rest (it : Iter K V top) : List (Σ _ : K, V) := it.cur ++ (below it.n it.path.node ++ right it.path)

theorem below_node {n : Nat} (path : Path K V top (n + 1)) :
    below (n + 1) path.node = path.children.flatMap (toList n) := rfl

theorem enter_append_below (n : Nat) (node : Node K V n) : enter [] n node ++ below n node = toList n node := by
  cases n with
  | zero => exact List.append_nil node
  | succ n =>
    change Inner (Σ _ : K, V) (Node K V n) at node
    refine congrArg (· ++ node.nodes.items.flatMap (toList n)) (?_ : (ite _ _ _ : List _) = node.data.items)
    split
    · rfl
    · rename_i hmap
      exact (SparseArray.items_eq_nil (not_not.1 hmap)).symm

/-- At a child the iterator has before it the elements below the child and those to its right. -/
theorem rest_child {n : Nat} (parent : Path K V top (n + 1)) (offset : Nat)
    (h : offset < parent.children.length) :
    rest ⟨n, parent.child offset (parent.children.get ⟨offset, h⟩),
      enter [] n (parent.children.get ⟨offset, h⟩)⟩ =
      (parent.children.drop offset).flatMap (toList n) ++ right parent := by
  rw [List.drop_eq_getElem_cons h, List.flatMap_cons, List.append_assoc]
  simp only [rest, right, Path.node_child, ← List.append_assoc, enter_append_below, List.get_eq_getElem]

theorem rest_stepDown {it it' : Iter K V top} (hcur : it.cur = []) (h : it.stepDown = some it') :
    it'.rest = it.rest := by
  obtain ⟨_ | n, path, cur⟩ := it
  · exact absurd h (Option.some_ne_none it').symm
  · cases hcur
    simp only [stepDown] at h
    split at h
    · rename_i hmap
      cases h
      exact rest_child path 0 (Path.children_pos hmap)
    · exact absurd h (Option.some_ne_none it').symm

theorem below_of_stepDown {it : Iter K V top} (h : it.stepDown = none) : below it.n it.path.node = [] := by
  obtain ⟨_ | n, path, cur⟩ := it
  · rfl
  · simp only [stepDown] at h
    split at h
    · exact absurd h (Option.some_ne_none _)
    · rename_i hmap
      rw [below_node, Path.children_nil (not_not.1 hmap), List.flatMap_nil]

theorem rest_stepRight {n : Nat} {path : Path K V top n} {it' : Iter K V top}
    (h : stepRight [] path = some it') : it'.rest = right path := by
  induction path with
  | root node => exact absurd h (Option.some_ne_none it').symm
  | child parent offset node ih =>
    rw [stepRight] at h
    split at h
    · rename_i hnext
      cases h
      exact rest_child parent (offset + 1) hnext
    · rename_i hnext
      rw [ih h, right, List.drop_eq_nil_of_le (Nat.le_of_not_lt hnext), List.flatMap_nil, List.nil_append]

theorem right_of_stepRight {n : Nat} {path : Path K V top n} (h : stepRight [] path = none) :
    right path = [] := by
  induction path with
  | root node => rfl
  | child parent offset node ih =>
    rw [stepRight] at h
    split at h
    · exact absurd h (Option.some_ne_none _)
    · rename_i hnext
      rw [right, ih h, List.drop_eq_nil_of_le (Nat.le_of_not_lt hnext)]
      rfl

theorem ensureValid_down {it it' : Iter K V top} (hcur : it.cur = []) (hd : it.stepDown = some it') :
    it.ensureValid = it'.ensureValid := by
  rw [ensureValid, if_neg (not_not_intro hcur)]
  split
  · rename_i hd'
    rw [Option.some.inj (hd.symm.trans hd')]
  · rename_i hd'
    exact absurd (hd.symm.trans hd') (Option.some_ne_none it')

theorem ensureValid_right {it : Iter K V top} (hcur : it.cur = []) (hd : it.stepDown = none) :
    it.ensureValid = (stepRight [] it.path).bind ensureValid := by
  rw [ensureValid, if_neg (not_not_intro hcur), ← hcur]
  split
  · rename_i it' hd'
    exact absurd (hd'.symm.trans hd) (Option.some_ne_none it')
  · split
    · rename_i hr
      rw [hr]
      rfl
    · rename_i hr
      rw [hr]
      rfl

/-- What is left to visit from an iterator, or from the end. -/
def restOf (it : Option (Iter K V top)) : List (Σ _ : K, V) := it.elim [] rest

/-- Moving on leaves the elements to visit as they are, and comes to the first of them. -/
theorem ensureValid_spec (it : Iter K V top) :
    restOf it.ensureValid = it.rest ∧ ∀ it', it.ensureValid = some it' → it'.cur ≠ [] := by
  induction it using ensureValid.induct with
  | case1 it h =>
    rw [ensureValid, if_pos h]
    exact ⟨rfl, fun it' h' => Option.some.inj h' ▸ h⟩
  | case2 it h it' hd ih =>
    rw [ensureValid_down (not_not.1 h) hd]
    exact ⟨ih.1.trans (rest_stepDown (not_not.1 h) hd), ih.2⟩
  | case3 it h hd it' hr ih =>
    have hcur := not_not.1 h
    have hrest : it.rest = right it.path := by
      rw [rest, hcur, below_of_stepDown hd, List.nil_append, List.nil_append]
    rw [hcur] at hr
    rw [ensureValid_right hcur hd, hr, hrest]
    exact ⟨ih.1.trans (rest_stepRight hr), ih.2⟩
  | case4 it h hd hr =>
    have hcur := not_not.1 h
    have hrest : it.rest = right it.path := by
      rw [rest, hcur, below_of_stepDown hd, List.nil_append, List.nil_append]
    rw [hcur] at hr
    rw [ensureValid_right hcur hd, hr, hrest, right_of_stepRight hr]
    exact ⟨rfl, fun it' h' => absurd h'.symm (Option.some_ne_none it')⟩

/-- The iterator at the first element, `begin()`. -/
def ofRoot (root : Node K V top) : Option (Iter K V top) := ensureValid ⟨top, .root root, enter [] top root⟩

def increment (it : Iter K V top) : Option (Iter K V top) := ensureValid { it with cur := it.cur.tail }

theorem length_increment {it : Iter K V top} {v : Σ _ : K, V} {cur : List (Σ _ : K, V)} (h : it.cur = v :: cur) :
    (restOf it.increment).length < it.rest.length := by
  rw [increment, (ensureValid_spec _).1, rest, rest, h]
  simp

/-- The loop to `end()`: the elements it comes to. -/
def loop (it : Option (Iter K V top)) : List (Σ _ : K, V) :=
  match it with
  | none => []
  | some it =>
    match _h : it.cur with
    | [] => []
    | v :: _ => v :: loop it.increment
termination_by (restOf it).length
decreasing_by exact length_increment _h

theorem loop_cons {it : Iter K V top} {v : Σ _ : K, V} {cur : List (Σ _ : K, V)} (h : it.cur = v :: cur) :
    loop (some it) = v :: loop it.increment := by
  rw [loop]
  split
  · rename_i h'
    exact absurd (h.symm.trans h') (List.cons_ne_nil v cur)
  · rename_i u _ h'
    rw [(List.cons.inj (h.symm.trans h')).1]

/-- The loop visits what is left to visit. -/
theorem loop_eq (it : Option (Iter K V top)) (hcur : ∀ it', it = some it' → it'.cur ≠ []) :
    loop it = restOf it := by
  induction it using loop.induct with
  | case1 =>
    rw [loop]
    rfl
  | case2 it h => exact absurd h (hcur it rfl)
  | case3 it v cur h ih =>
    obtain ⟨hrest, hvalid⟩ := ensureValid_spec { it with cur := it.cur.tail }
    rw [loop_cons h, ih hvalid, increment, hrest, restOf, Option.elim_some, rest, rest, h]
    rfl

theorem loop_ofRoot (root : Node K V top) : loop (ofRoot root) = toList top root := by
  obtain ⟨hrest, hcur⟩ := ensureValid_spec ⟨top, Path.root root, enter [] top root⟩
  refine (loop_eq _ hcur).trans (hrest.trans ?_)
  rw [rest, right, List.append_nil]
  exact enter_append_below top root

end Iter

end Champ

namespace ImmerMap

open Champ

variable {K V : Type*} {hasher : K → Hash}

/-- What iterating over a map from `begin()` to `end()` visits. -/
def visited (m : ImmerMap V hasher) : List (Σ _ : K, V) := Iter.loop (Iter.ofRoot m.root)

theorem visited_eq (m : ImmerMap V hasher) : m.visited = m.elements := Iter.loop_ofRoot m.root

/-- **Iterating over a map comes to every key once, with the value last set for it, and
`size` times to an element.** -/
theorem ofAssigns_visited [DecidableEq K] (hasher : K → Hash) (as : List (Assign K V)) :
    (ofAssigns hasher as).visited.NodupKeys ∧
      (∀ k v, ⟨k, v⟩ ∈ (ofAssigns hasher as).visited ↔ lastAssigned k as = some v) ∧
      (ofAssigns hasher as).visited.length = (ofAssigns hasher as).size := by
  rw [visited_eq]
  refine ⟨(ofAssigns hasher as).nodupKeys, fun k v => ?_, (ofAssigns hasher as).size_eq.symm⟩
  rw [← lookup_ofAssigns hasher]
  exact (List.mem_dlookup_iff (ofAssigns hasher as).nodupKeys).symm

end ImmerMap

end ConfigServer
