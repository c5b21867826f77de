/-
What the operations of a `champ` do to the elements below a node. A node is
seen as its slots: each holds an element, a child or nothing, and every
operation fills one slot anew. An element is in the slot its hash says, so the
elements of the other slots have other keys.
-/
import ConfigServer.Champ

namespace ConfigServer

namespace Champ

open List

/-! ## Slots -/

inductive Slot (T C : Type*)
  | empty
  | value (v : T)
  | child (c : C)

namespace Slot

variable {T C : Type*}

def value? : Slot T C → Option T
  | value v => some v
  | _ => none

def child? : Slot T C → Option C
  | child c => some c
  | _ => none

def elements (below : C → List T) : Slot T C → List T
  | empty => []
  | value v => [v]
  | child c => below c

/-- The elements of the slot that are in the node itself, and those below its child. -/
theorem elements_eq (below : C → List T) (s : Slot T C) :
    s.value?.toList ++ (s.child?.map below).getD [] = s.elements below := by
  cases s <;> rfl

end Slot

namespace Inner

variable {T C : Type*} (below : C → List T)

def slot (node : Inner T C) (i : Fin branches) : Slot T C :=
  match node.nodes.get? i with
  | some c => .child c
  | none =>
    match node.data.get? i with
    | some v => .value v
    | none => .empty

def elements (node : Inner T C) : List T := node.data.items ++ node.nodes.items.flatMap below

variable {below} {node node' : Inner T C} {i : Fin branches}

theorem slot_of_nodes (h : node.nodes.has i = true) : node.slot i = .child (node.nodes.item i h) := by
  rw [slot, SparseArray.get?_of_has h]

theorem slot_of_data (h : node.data.has i = true) : node.slot i = .value (node.data.item i h) := by
  rw [slot, SparseArray.get?_of_not_has (node.disjoint i h), SparseArray.get?_of_has h]

theorem slot_of_empty (hn : node.nodes.has i = false) (hd : node.data.has i = false) : node.slot i = .empty := by
  rw [slot, SparseArray.get?_of_not_has hn, SparseArray.get?_of_not_has hd]

@[simp] theorem slot_empty (i : Fin branches) : (empty : Inner T C).slot i = .empty :=
  slot_of_empty (SparseArray.has_empty i) (SparseArray.has_empty i)

theorem child?_slot (node : Inner T C) (i : Fin branches) : (node.slot i).child? = node.nodes.get? i := by
  cases hn : node.nodes.has i with
  | true => rw [slot_of_nodes hn, SparseArray.get?_of_has hn]; rfl
  | false =>
    rw [SparseArray.get?_of_not_has hn]
    cases hd : node.data.has i with
    | true => rw [slot_of_data hd]; rfl
    | false => rw [slot_of_empty hn hd]; rfl

theorem value?_slot (node : Inner T C) (i : Fin branches) : (node.slot i).value? = node.data.get? i := by
  cases hd : node.data.has i with
  | true => rw [slot_of_data hd, SparseArray.get?_of_has hd]; rfl
  | false =>
    rw [SparseArray.get?_of_not_has hd]
    cases hn : node.nodes.has i with
    | true => rw [slot_of_nodes hn]; rfl
    | false => rw [slot_of_empty hn hd]; rfl

theorem flatMap_filterMap {α β γ : Type*} (l : List α) (f : α → Option β) (g : β → List γ) :
    (l.filterMap f).flatMap g = l.flatMap fun a => ((f a).map g).getD [] := by
  induction l with
  | nil => rfl
  | cons a l ih =>
    rw [List.flatMap_cons, ← ih]
    cases h : f a <;> simp [h]

/-- The elements below a node, read off its slots in their order. -/
theorem elements_eq (node : Inner T C) :
    node.elements below = ((finRange branches).flatMap fun i => (node.slot i).value?.toList) ++
      (finRange branches).flatMap fun i => ((node.slot i).child?.map below).getD [] := by
  rw [elements, SparseArray.items_eq node.data, SparseArray.items_eq node.nodes, flatMap_filterMap,
    List.filterMap_eq_flatMap_toList]
  simp only [child?_slot, value?_slot]

theorem perm_elements (node : Inner T C) :
    node.elements below ~ (finRange branches).flatMap fun i => (node.slot i).elements below := by
  rw [elements_eq]
  refine (List.flatMap_append_perm _ _ _).trans (Perm.of_eq ?_)
  exact congrArg (finRange branches).flatMap (funext fun i => (node.slot i).elements_eq below)

/-- A node that differs from another in one slot has the same elements besides those of the slot. -/
theorem elements_put (below : C → List T) {s : Slot T C}
    (h : ∀ j, node'.slot j = if j = i then s else node.slot j) :
    ∃ others, node.elements below ~ (node.slot i).elements below ++ others ∧
      node'.elements below ~ s.elements below ++ others ∧
      ∀ v ∈ others, ∃ j ≠ i, v ∈ (node.slot j).elements below := by
  have hi : finRange branches ~ i :: (finRange branches).erase i := List.perm_cons_erase (List.mem_finRange i)
  have hne : ∀ j ∈ (finRange branches).erase i, j ≠ i := fun j hj =>
    ((List.nodup_finRange branches).mem_erase_iff.1 hj).1
  refine ⟨((finRange branches).erase i).flatMap fun j => (node.slot j).elements below, ?_, ?_, ?_⟩
  · exact (perm_elements node).trans (hi.flatMap_right _)
  · refine (perm_elements node').trans ((hi.flatMap_right _).trans (Perm.of_eq ?_))
    rw [List.flatMap_cons, h i, if_pos rfl]
    refine congrArg _ (List.flatMap_congr fun j hj => ?_)
    rw [h j, if_neg (hne j hj)]
  · intro v hv
    obtain ⟨j, hj, hv⟩ := List.mem_flatMap.1 hv
    exact ⟨j, hne j hj, hv⟩

theorem elements_split (below : C → List T) (node : Inner T C) (i : Fin branches) :
    ∃ others, node.elements below ~ (node.slot i).elements below ++ others ∧
      ∀ v ∈ others, ∃ j ≠ i, v ∈ (node.slot j).elements below := by
  have hsame : ∀ j, node.slot j = if j = i then node.slot i else node.slot j := by
    intro j
    split
    · rename_i hj
      rw [hj]
    · rfl
  obtain ⟨others, hold, -, hothers⟩ := elements_put below hsame
  exact ⟨others, hold, hothers⟩

/-! ## What each copy fills in -/

theorem slot_eq (node : Inner T C) (i : Fin branches) :
    node.slot i = (((node.nodes.get? i).map Slot.child).orElse fun _ =>
      (node.data.get? i).map Slot.value).getD .empty := by
  rw [slot]
  cases node.nodes.get? i with
  | some c => rfl
  | none => cases node.data.get? i <;> rfl

theorem slot_copyInnerReplace (h : node.nodes.has i = true) (child : C) (j : Fin branches) :
    (node.copyInnerReplace i child).slot j = if j = i then .child child else node.slot j := by
  rw [slot_eq, slot_eq, copyInnerReplace, SparseArray.get?_set h]
  split <;> rfl

theorem slot_copyInnerReplaceValue (h : node.data.has i = true) (v : T) (j : Fin branches) :
    (node.copyInnerReplaceValue i v).slot j = if j = i then .value v else node.slot j := by
  rw [slot_eq, slot_eq, copyInnerReplaceValue, SparseArray.get?_set h]
  by_cases hj : j = i
  · rw [hj, SparseArray.get?_of_not_has (node.disjoint i h), if_pos rfl, if_pos rfl]
    rfl
  · rw [if_neg hj, if_neg hj]

theorem slot_copyInnerReplaceMerged (h : node.data.has i = true) (child : C) (j : Fin branches) :
    (node.copyInnerReplaceMerged i h child).slot j = if j = i then .child child else node.slot j := by
  rw [slot_eq, slot_eq, copyInnerReplaceMerged, SparseArray.get?_insert, SparseArray.get?_erase]
  by_cases hj : j = i
  · rw [if_pos hj, if_pos hj, if_pos hj]
    rfl
  · rw [if_neg hj, if_neg hj, if_neg hj]

theorem slot_copyInnerInsertValue (hn : node.nodes.has i = false) (hd : node.data.has i = false) (v : T)
    (j : Fin branches) :
    (node.copyInnerInsertValue i hn hd v).slot j = if j = i then .value v else node.slot j := by
  rw [slot_eq, slot_eq, copyInnerInsertValue, SparseArray.get?_insert]
  by_cases hj : j = i
  · rw [hj, SparseArray.get?_of_not_has hn, if_pos rfl, if_pos rfl]
    rfl
  · rw [if_neg hj, if_neg hj]

theorem slot_ofChild (child : C) (j : Fin branches) :
    (ofChild i child : Inner T C).slot j = if j = i then .child child else .empty := by
  rw [slot_eq, ofChild, SparseArray.get?_single, SparseArray.get?_empty]
  split <;> rfl

theorem slot_ofPair {k : Fin branches} (x y : T) (h : i ≠ k) (j : Fin branches) :
    (ofPair i x k y h : Inner T C).slot j = if j = k then .value y else if j = i then .value x else .empty := by
  rw [slot_eq, ofPair, SparseArray.get?_insert, SparseArray.get?_single, SparseArray.get?_empty]
  split
  · rfl
  · split <;> rfl

theorem elements_ofChild (child : C) : (ofChild i child : Inner T C).elements below = below child := by
  simp [elements, ofChild, SparseArray.empty, SparseArray.single]

theorem elements_ofPair {k : Fin branches} (x y : T) (h : i ≠ k) :
    (ofPair i x k y h : Inner T C).elements below ~ [x, y] := by
  have hperm := SparseArray.perm_insert (.single i x) k y
    (by rw [SparseArray.has_single, decide_eq_false h.symm])
  simp only [elements, ofPair, SparseArray.empty, List.flatMap_nil, List.append_nil]
  exact hperm.trans (Perm.swap x y [])

end Inner

/-! ## Elements in their slots -/

variable {K V : Type*} (hasher : K → Hash)

/-- The elements below a slot have its index, and there are several below a child. -/
structure Slot.Routed {T C : Type*} (index : T → Fin branches) (below : C → List T) (routed : C → Prop)
    (i : Fin branches) (s : Slot T C) : Prop where
  index : ∀ v ∈ s.elements below, index v = i
  child : ∀ c, s = .child c → routed c ∧ 2 ≤ (below c).length

/-- Every element below a node is where its hash says, from `shift` on. -/
def Routed : (n : Nat) → Nat → Node K V n → Prop
  | 0, _, _ => True
  | n + 1, shift, (node : Inner (Σ _ : K, V) (Node K V n)) =>
    ∀ i, (node.slot i).Routed (fun v => idx (hasher v.1) shift) (toList n) (Routed n (shift + bits)) i

variable {hasher}

theorem Slot.Routed.empty {T C : Type*} {index : T → Fin branches} {below : C → List T} {routed : C → Prop}
    {i : Fin branches} : (Slot.empty : Slot T C).Routed index below routed i :=
  ⟨fun _ h => absurd h List.not_mem_nil, fun _ h => by cases h⟩

theorem Slot.Routed.value {T C : Type*} {index : T → Fin branches} {below : C → List T} {routed : C → Prop}
    {i : Fin branches} {v : T} (h : index v = i) : (Slot.value v : Slot T C).Routed index below routed i :=
  ⟨fun _ hv => List.mem_singleton.1 hv ▸ h, fun _ h => by cases h⟩

theorem makeMerged_of_eq {n shift : Nat} {v1 v2 : Σ _ : K, V} {hash1 hash2 : Hash}
    (h : hash1 &&& mask <<< shift = hash2 &&& mask <<< shift) :
    makeMerged (n + 1) shift v1 hash1 v2 hash2 =
      Inner.ofChild (idx hash1 shift) (makeMerged n (shift + bits) v1 hash1 v2 hash2) :=
  dif_pos h

theorem makeMerged_of_ne {n shift : Nat} {v1 v2 : Σ _ : K, V} {hash1 hash2 : Hash}
    (h : hash1 &&& mask <<< shift ≠ hash2 &&& mask <<< shift) :
    makeMerged (n + 1) shift v1 hash1 v2 hash2 =
      Inner.ofPair (idx hash1 shift) v1 (idx hash2 shift) v2 (idx_ne h) :=
  dif_neg h

/-- The node made for two elements has these two, in their slots. -/
theorem perm_makeMerged (hasher : K → Hash) (v1 v2 : Σ _ : K, V) (n shift : Nat) :
    toList n (makeMerged n shift v1 (hasher v1.1) v2 (hasher v2.1)) ~ [v1, v2] ∧
      Routed hasher n shift (makeMerged n shift v1 (hasher v1.1) v2 (hasher v2.1)) := by
  induction n generalizing shift with
  | zero => exact ⟨Perm.refl _, trivial⟩
  | succ n ih =>
    obtain ⟨hperm, hrouted⟩ := ih (shift + bits)
    by_cases h : hasher v1.1 &&& mask <<< shift = hasher v2.1 &&& mask <<< shift
    · rw [makeMerged_of_eq h]
      have hidx : idx (hasher v2.1) shift = idx (hasher v1.1) shift := by
        rw [idx, idx, Fin.mk.injEq, h]
      refine ⟨(Perm.of_eq (Inner.elements_ofChild _)).trans hperm, fun j => ?_⟩
      rw [Inner.slot_ofChild]
      split
      · rename_i hj
        subst hj
        refine ⟨fun v hv => ?_, fun c hc => ?_⟩
        · rcases List.mem_pair.1 (hperm.mem_iff.1 hv) with rfl | rfl
          · rfl
          · exact hidx
        · cases hc
          exact ⟨hrouted, Nat.le_of_eq hperm.length_eq.symm⟩
      · exact .empty
    · rw [makeMerged_of_ne h]
      refine ⟨Inner.elements_ofPair v1 v2 (idx_ne h), fun j => ?_⟩
      rw [Inner.slot_ofPair]
      split
      · rename_i hj
        exact .value hj.symm
      · split
        · rename_i hj
          exact .value hj.symm
        · exact .empty

theorem nodupKeys_child {n : Nat} {node : Inner (Σ _ : K, V) (Node K V n)}
    (hnd : (toList (n + 1) node).NodupKeys) {i : Fin branches} (hn : node.nodes.has i = true) :
    (toList n (node.nodes.item i hn)).NodupKeys := by
  refine NodupKeys.sublist ?_ hnd
  have hmem : toList n (node.nodes.item i hn) ∈ node.nodes.items.map (toList n) :=
    List.mem_map_of_mem (List.get_mem _ _)
  exact (List.sublist_flatten_of_mem hmem).trans (List.sublist_append_right _ _)

/-! ## Adding -/

variable [DecidableEq K]

theorem length_kinsert (k : K) (x : V) (l : List (Σ _ : K, V)) :
    (kinsert k x l).length = if k ∈ l.keys then l.length else l.length + 1 := by
  have hlen (l : List (Σ _ : K, V)) : l.keys.length = l.length := List.length_map _
  rw [kinsert_def, List.length_cons, ← hlen, keys_kerase, List.length_erase]
  split
  · rename_i h
    have := List.length_pos_of_mem h
    rw [hlen] at this ⊢
    omega
  · rw [hlen]

theorem mem_kinsert {k : K} {x : V} {l : List (Σ _ : K, V)} {v : Σ _ : K, V} (h : v ∈ kinsert k x l) :
    v = ⟨k, x⟩ ∨ v ∈ l := by
  rcases List.mem_cons.1 h with h | h
  · exact .inl h
  · exact .inr ((kerase_sublist k l).subset h)

/-- What inserting does to some elements, it does to them beside others with other keys. -/
theorem kinsert_append {k : K} {x : V} {l r : List (Σ _ : K, V)} (h : k ∉ r.keys) :
    kinsert k x (l ++ r) = kinsert k x l ++ r := by
  rw [kinsert_def, kinsert_def, List.cons_append]
  by_cases hl : k ∈ l.keys
  · rw [kerase_append_left hl]
  · rw [kerase_append_right hl, kerase_of_notMem_keys h, kerase_of_notMem_keys hl]

/-- A node with one element set in it, and whether there is an element more. -/
structure Added (hasher : K → Hash) (n shift : Nat) (node : Node K V n) (v : Σ _ : K, V) (node' : Node K V n)
    (added : Bool) : Prop where
  perm : toList n node' ~ kinsert v.1 v.2 (toList n node)
  added : added = decide (v.1 ∉ (toList n node).keys)
  routed : Routed hasher n shift node'

theorem Added.length {n shift : Nat} {node node' : Node K V n} {v : Σ _ : K, V} {added : Bool}
    (h : Added hasher n shift node v node' added) :
    (toList n node').length = (toList n node).length + if added then 1 else 0 := by
  rw [h.perm.length_eq, length_kinsert, h.added]
  by_cases hk : v.1 ∈ (toList n node).keys <;> simp [hk]

/-- Filling the slot of a key is setting an element of the whole node. -/
theorem Added.put {n shift : Nat} {node node' : Inner (Σ _ : K, V) (Node K V n)} {v : Σ _ : K, V} {added : Bool}
    (hr : Routed hasher (n + 1) shift node) (hnd : (toList (n + 1) node).NodupKeys)
    {s : Slot (Σ _ : K, V) (Node K V n)}
    (hslot : ∀ j, node'.slot j = if j = idx (hasher v.1) shift then s else node.slot j)
    (hperm : s.elements (toList n) ~ kinsert v.1 v.2 ((node.slot (idx (hasher v.1) shift)).elements (toList n)))
    (hadded : added = decide (v.1 ∉ ((node.slot (idx (hasher v.1) shift)).elements (toList n)).keys))
    (hchild : ∀ c, s = .child c → Routed hasher n (shift + bits) c ∧ 2 ≤ (toList n c).length) :
    Added hasher (n + 1) shift node v node' added := by
  obtain ⟨others, hold, hnew, hothers⟩ := Inner.elements_put (toList n) hslot
  have hkey : v.1 ∉ others.keys := by
    intro hk
    obtain ⟨x, hx⟩ := exists_of_mem_keys hk
    obtain ⟨j, hj, hmem⟩ := hothers _ hx
    exact hj ((hr j).index _ hmem).symm
  refine ⟨?_, ?_, fun j => ?_⟩
  · refine hnew.trans ((hperm.append_right others).trans ?_)
    rw [← kinsert_append hkey]
    exact (Perm.kinsert hnd hold).symm
  · rw [hadded, decide_eq_decide, not_iff_not]
    have hkeys : (toList (n + 1) node).keys ~
        ((node.slot (idx (hasher v.1) shift)).elements (toList n) ++ others).keys := hold.map Sigma.fst
    rw [hkeys.mem_iff, keys_append, List.mem_append, or_iff_left hkey]
  · rw [hslot]
    split
    · rename_i hj
      subst hj
      refine ⟨fun u hu => ?_, hchild⟩
      rcases mem_kinsert (hperm.mem_iff.1 hu) with rfl | hu
      · rfl
      · exact (hr _).index u hu
    · exact hr j

theorem kerase_of_findIdx? {k : K} {l : List (Σ _ : K, V)} {pos : Nat}
    (h : l.findIdx? (fun val => val.1 = k) = some pos) :
    kerase k l = l.take pos ++ l.drop (pos + 1) ∧ k ∈ l.keys := by
  constructor
  · have heq : (fun val : Σ _ : K, V => decide (val.1 = k)) = fun val => decide (k = val.1) := by
      simp only [eq_comm]
    rw [kerase, List.eraseP_eq_eraseIdx, ← heq, h]
    exact List.eraseIdx_eq_take_drop_succ l pos
  · obtain ⟨hlt, hkey, -⟩ := List.findIdx?_eq_some_iff_getElem.1 h
    rw [← of_decide_eq_true hkey]
    exact mem_keys_of_mem (List.getElem_mem hlt)

theorem notMem_keys_of_findIdx? {k : K} {l : List (Σ _ : K, V)}
    (h : l.findIdx? (fun val => val.1 = k) = none) : k ∉ l.keys := by
  rw [List.findIdx?_eq_none_iff] at h
  refine ne_key.2 fun val hval hk => ?_
  exact absurd hk.symm (of_decide_eq_false (h val hval))

section equations

variable {n shift : Nat} {node : Inner (Σ _ : K, V) (Node K V n)} {v : Σ _ : K, V} {hash : Hash}

theorem doAdd_child (hn : node.nodes.has (idx hash shift) = true) :
    doAdd hasher (n + 1) node v hash shift =
      let result := doAdd hasher n (node.nodes.item (idx hash shift) hn) v hash (shift + bits)
      (node.copyInnerReplace (idx hash shift) result.1, result.2) :=
  dif_pos hn

theorem doAdd_value (hn : node.nodes.has (idx hash shift) = false) (hd : node.data.has (idx hash shift) = true) :
    doAdd hasher (n + 1) node v hash shift =
      let val := node.data.item (idx hash shift) hd
      if val.1 = v.1 then
        (node.copyInnerReplaceValue (idx hash shift) v, false)
      else
        (node.copyInnerReplaceMerged (idx hash shift) hd
          (makeMerged n (shift + bits) v hash val (hasher val.1)), true) :=
  (dif_neg (Bool.eq_false_iff.1 hn)).trans (dif_pos hd)

theorem doAdd_empty (hn : node.nodes.has (idx hash shift) = false)
    (hd : node.data.has (idx hash shift) = false) :
    doAdd hasher (n + 1) node v hash shift = (node.copyInnerInsertValue (idx hash shift) hn hd v, true) :=
  (dif_neg (Bool.eq_false_iff.1 hn)).trans (dif_neg (Bool.eq_false_iff.1 hd))

end equations

theorem Added.replace {node : Node K V 0} {v : Σ _ : K, V} {pos shift : Nat}
    (h : List.findIdx? (fun val => val.1 = v.1) node = some pos) :
    Added hasher 0 shift node v (copyCollisionReplace node pos v) false := by
  obtain ⟨hk, hmem⟩ := kerase_of_findIdx? h
  refine ⟨Perm.of_eq ?_, (decide_eq_false (not_not_intro hmem)).symm, trivial⟩
  rw [kinsert_def]
  exact congrArg (v :: ·) hk.symm

theorem Added.insert {node : Node K V 0} {v : Σ _ : K, V} {shift : Nat}
    (h : List.findIdx? (fun val => val.1 = v.1) node = none) :
    Added hasher 0 shift node v (copyCollisionInsert node v) true := by
  have hk := notMem_keys_of_findIdx? h
  refine ⟨Perm.of_eq ?_, (decide_eq_true hk).symm, trivial⟩
  rw [kinsert_def]
  exact congrArg (v :: ·) (kerase_of_notMem_keys hk).symm

section filling

variable {n shift : Nat} {node : Inner (Σ _ : K, V) (Node K V n)} {v : Σ _ : K, V}

/-- The key is below a child: the child is replaced by one with the element set. -/
theorem Added.child (hr : Routed hasher (n + 1) shift node) (hnd : (toList (n + 1) node).NodupKeys)
    (hn : node.nodes.has (idx (hasher v.1) shift) = true) {child : Node K V n} {added : Bool}
    (h : Added hasher n (shift + bits) (node.nodes.item _ hn) v child added) :
    Added hasher (n + 1) shift node v (node.copyInnerReplace (idx (hasher v.1) shift) child) added := by
  refine .put hr hnd (Inner.slot_copyInnerReplace hn child) ?_ ?_ fun c hc => ?_
  · rw [Inner.slot_of_nodes hn]
    exact h.perm
  · rw [Inner.slot_of_nodes hn]
    exact h.added
  · cases hc
    have hlen := ((hr (idx (hasher v.1) shift)).child _ (Inner.slot_of_nodes hn)).2
    exact ⟨h.routed, by rw [h.length]; omega⟩

/-- The element with the key is in the node itself. -/
theorem Added.value (hr : Routed hasher (n + 1) shift node) (hnd : (toList (n + 1) node).NodupKeys)
    (hd : node.data.has (idx (hasher v.1) shift) = true) (hval : (node.data.item _ hd).1 = v.1) :
    Added hasher (n + 1) shift node v (node.copyInnerReplaceValue (idx (hasher v.1) shift) v) false := by
  refine .put hr hnd (Inner.slot_copyInnerReplaceValue hd v) ?_ ?_ fun c hc => by cases hc
  · rw [Inner.slot_of_data hd, Slot.elements, Slot.elements, kinsert_def, kerase_cons_eq hval.symm]
  · rw [Inner.slot_of_data hd, Slot.elements, keys_cons, hval]
    simp

/-- Another element is where the key belongs: both go below a child. -/
theorem Added.merged (hr : Routed hasher (n + 1) shift node) (hnd : (toList (n + 1) node).NodupKeys)
    (hd : node.data.has (idx (hasher v.1) shift) = true) (hval : (node.data.item _ hd).1 ≠ v.1) :
    Added hasher (n + 1) shift node v
      (node.copyInnerReplaceMerged (idx (hasher v.1) shift) hd
        (makeMerged n (shift + bits) v (hasher v.1) (node.data.item _ hd) (hasher (node.data.item _ hd).1)))
      true := by
  obtain ⟨hperm, hrouted⟩ := perm_makeMerged hasher v (node.data.item _ hd) n (shift + bits)
  refine .put hr hnd (Inner.slot_copyInnerReplaceMerged hd _) ?_ ?_ fun c hc => ?_
  · rw [Inner.slot_of_data hd, Slot.elements, Slot.elements, kinsert_def, kerase_cons_ne hval.symm, kerase_nil]
    exact hperm
  · rw [Inner.slot_of_data hd, Slot.elements, keys_cons, keys_nil]
    simp [hval.symm]
  · cases hc
    exact ⟨hrouted, Nat.le_of_eq hperm.length_eq.symm⟩

/-- There is nothing where the key belongs. -/
theorem Added.inserted (hr : Routed hasher (n + 1) shift node) (hnd : (toList (n + 1) node).NodupKeys)
    (hn : node.nodes.has (idx (hasher v.1) shift) = false)
    (hd : node.data.has (idx (hasher v.1) shift) = false) :
    Added hasher (n + 1) shift node v (node.copyInnerInsertValue (idx (hasher v.1) shift) hn hd v) true := by
  refine .put hr hnd (Inner.slot_copyInnerInsertValue hn hd v) ?_ ?_ fun c hc => by cases hc
  · rw [Inner.slot_of_empty hn hd]
    exact Perm.refl _
  · rw [Inner.slot_of_empty hn hd]
    rfl

end filling

theorem added_doAdd (n shift : Nat) (node : Node K V n) (v : Σ _ : K, V) (hr : Routed hasher n shift node)
    (hnd : (toList n node).NodupKeys) :
    Added hasher n shift node v (doAdd hasher n node v (hasher v.1) shift).1
      (doAdd hasher n node v (hasher v.1) shift).2 := by
  induction n generalizing shift with
  | zero =>
    rw [doAdd]
    cases h : List.findIdx? (fun val => decide (val.1 = v.1)) node with
    | some pos => exact .replace h
    | none => exact .insert h
  | succ n ih =>
    change Inner (Σ _ : K, V) (Node K V n) at node
    cases hn : node.nodes.has (idx (hasher v.1) shift) with
    | true =>
      rw [doAdd_child hn]
      have hchild := (hr (idx (hasher v.1) shift)).child _ (Inner.slot_of_nodes hn)
      exact .child hr hnd hn (ih _ _ hchild.1 (nodupKeys_child hnd hn))
    | false =>
      cases hd : node.data.has (idx (hasher v.1) shift) with
      | true =>
        rw [doAdd_value hn hd]
        dsimp only
        split
        · rename_i hval
          exact .value hr hnd hd hval
        · rename_i hval
          exact .merged hr hnd hd hval
      | false =>
        rw [doAdd_empty hn hd]
        exact .inserted hr hnd hn hd

theorem doAddMut_child {canMutate : Nat → Bool} {n shift : Nat} {node : Inner (Σ _ : K, V) (Node K V n)}
    {v : Σ _ : K, V} {hash : Hash} (hn : node.nodes.has (idx hash shift) = true) :
    doAddMut hasher canMutate (n + 1) node v hash shift =
      if canMutate shift then
        let result := doAddMut hasher canMutate n (node.nodes.item (idx hash shift) hn) v hash (shift + bits)
        (node.copyInnerReplace (idx hash shift) result.1, result.2.1, true)
      else
        let result := doAdd hasher n (node.nodes.item (idx hash shift) hn) v hash (shift + bits)
        (node.copyInnerReplace (idx hash shift) result.1, result.2, false) :=
  dif_pos hn

/-- Away from a child and from a collision, an element set in place leaves the
node that setting it in a copy makes. -/
theorem doAddMut_here {canMutate : Nat → Bool} {n shift : Nat} {node : Inner (Σ _ : K, V) (Node K V n)}
    {v : Σ _ : K, V} {hash : Hash} (hn : node.nodes.has (idx hash shift) = false) :
    doAddMut hasher canMutate (n + 1) node v hash shift =
      ((doAdd hasher (n + 1) node v hash shift).1, (doAdd hasher (n + 1) node v hash shift).2,
        canMutate shift) := by
  cases hd : node.data.has (idx hash shift) with
  | true =>
    rw [doAdd_value hn hd]
    refine ((dif_neg (Bool.eq_false_iff.1 hn)).trans (dif_pos hd)).trans ?_
    dsimp only
    split <;> rfl
  | false =>
    rw [doAdd_empty hn hd]
    exact (dif_neg (Bool.eq_false_iff.1 hn)).trans (dif_neg (Bool.eq_false_iff.1 hd))

theorem perm_set_collision {k : K} {l : List (Σ _ : K, V)} {v : Σ _ : K, V} {pos : Nat}
    (h : l.findIdx? (fun val => val.1 = k) = some pos) :
    l.set pos v ~ v :: (l.take pos ++ l.drop (pos + 1)) := by
  obtain ⟨hlt, -, -⟩ := List.findIdx?_eq_some_iff_getElem.1 h
  rw [← List.eraseIdx_eq_take_drop_succ]
  exact List.set_perm_cons_eraseIdx hlt v

/-- Whatever `can_mutate` answers, the same elements are there as after `do_add`. -/
theorem added_doAddMut (canMutate : Nat → Bool) (n shift : Nat) (node : Node K V n) (v : Σ _ : K, V)
    (hr : Routed hasher n shift node) (hnd : (toList n node).NodupKeys) :
    Added hasher n shift node v (doAddMut hasher canMutate n node v (hasher v.1) shift).1
      (doAddMut hasher canMutate n node v (hasher v.1) shift).2.1 := by
  induction n generalizing shift with
  | zero =>
    rw [doAddMut]
    cases h : List.findIdx? (fun val => decide (val.1 = v.1)) node with
    | some pos =>
      dsimp only
      split
      · have hcopy : Added hasher 0 shift node v (copyCollisionReplace node pos v) false := .replace h
        exact ⟨(perm_set_collision h).trans hcopy.perm, hcopy.added, trivial⟩
      · exact .replace h
    | none => exact .insert h
  | succ n ih =>
    change Inner (Σ _ : K, V) (Node K V n) at node
    cases hn : node.nodes.has (idx (hasher v.1) shift) with
    | true =>
      have hchild := (hr (idx (hasher v.1) shift)).child _ (Inner.slot_of_nodes hn)
      rw [doAddMut_child hn]
      split
      · exact .child hr hnd hn (ih _ _ hchild.1 (nodupKeys_child hnd hn))
      · exact .child hr hnd hn (added_doAdd _ _ _ _ hchild.1 (nodupKeys_child hnd hn))
    | false =>
      rw [doAddMut_here hn]
      exact added_doAdd _ _ _ _ hr hnd

/-! ## Looking up -/

theorem idx_shiftRight (hash : Hash) (shift : Nat) : idx (hash >>> shift) 0 = idx hash shift := by
  rw [idx, idx, Fin.mk.injEq, BitVec.toNat_inj]
  refine BitVec.eq_of_getLsbD_eq fun k _ => ?_
  rw [getLsbD_part, getLsbD_part, BitVec.getLsbD_ushiftRight, Nat.zero_add]

/-- An element is looked up in the slot of its key. -/
theorem dlookup_slot {n shift : Nat} {node : Inner (Σ _ : K, V) (Node K V n)}
    (hr : Routed hasher (n + 1) shift node) (hnd : (toList (n + 1) node).NodupKeys) (k : K) :
    dlookup k (toList (n + 1) node) =
      dlookup k ((node.slot (idx (hasher k) shift)).elements (toList n)) := by
  obtain ⟨others, hold, hothers⟩ := Inner.elements_split (toList n) node (idx (hasher k) shift)
  have hkey : k ∉ others.keys := by
    intro hk
    obtain ⟨x, hx⟩ := exists_of_mem_keys hk
    obtain ⟨j, hj, hmem⟩ := hothers _ hx
    exact hj ((hr j).index _ hmem).symm
  rw [perm_dlookup k hnd hold, dlookup_append, dlookup_eq_none.2 hkey, Option.or_none]

section equations

variable {k : K} {n : Nat} {node : Inner (Σ _ : K, V) (Node K V n)} {hash : Hash} {i : Fin branches}

theorem get_child (hi : idx hash 0 = i) (hn : node.nodes.has i = true) :
    get k (n + 1) node hash = get k n (node.nodes.item i hn) (hash >>> bits) := by
  subst hi
  exact dif_pos hn

theorem get_value (hi : idx hash 0 = i) (hn : node.nodes.has i = false) (hd : node.data.has i = true) :
    get k (n + 1) node hash = if (node.data.item i hd).1 = k then some (node.data.item i hd).2 else none := by
  subst hi
  exact (dif_neg (Bool.eq_false_iff.1 hn)).trans (dif_pos hd)

theorem get_empty (hi : idx hash 0 = i) (hn : node.nodes.has i = false) (hd : node.data.has i = false) :
    get k (n + 1) node hash = none := by
  subst hi
  exact (dif_neg (Bool.eq_false_iff.1 hn)).trans (dif_neg (Bool.eq_false_iff.1 hd))

end equations

/-- `get` finds the element with the key, wherever it is below the node. -/
theorem get_eq (k : K) (n shift : Nat) (node : Node K V n) (hr : Routed hasher n shift node)
    (hnd : (toList n node).NodupKeys) :
    get k n node (hasher k >>> shift) = dlookup k (toList n node) := by
  induction n generalizing shift with
  | zero =>
    have hfind := congrArg (Option.map Sigma.snd) (map_dlookup_eq_find k (toList 0 node))
    rw [Option.map_map] at hfind
    rw [get]
    simp only [eq_comm (b := k)]
    exact hfind.symm.trans Option.map_id'
  | succ n ih =>
    change Inner (Σ _ : K, V) (Node K V n) at node
    have hidx := idx_shiftRight (hasher k) shift
    rw [dlookup_slot hr hnd]
    cases hn : node.nodes.has (idx (hasher k) shift) with
    | true =>
      have hchild := (hr (idx (hasher k) shift)).child _ (Inner.slot_of_nodes hn)
      have hrest := ih (shift + bits) _ hchild.1 (nodupKeys_child hnd hn)
      rw [Inner.slot_of_nodes hn, Slot.elements, ← hrest, BitVec.shiftRight_add]
      exact get_child hidx hn
    | false =>
      cases hd : node.data.has (idx (hasher k) shift) with
      | true =>
        rw [get_value hidx hn hd, Inner.slot_of_data hd, Slot.elements]
        generalize node.data.item _ hd = val
        split
        · rename_i hk
          subst hk
          exact (dlookup_cons_eq ([] : List (Σ _ : K, V)) val.1 val.2).symm
        · rename_i hk
          exact (dlookup_cons_ne [] _ fun h => hk h.symm).symm
      | false =>
        rw [get_empty hidx hn hd, Inner.slot_of_empty hn hd]
        rfl

end Champ

end ConfigServer
