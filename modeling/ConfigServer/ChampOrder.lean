/-
The order in which a `champ` visits its elements. Where an element stands
depends on the hashes of the keys that are there, not on the order in which
they came: two trees with the same keys visit the same hashes in the same
order, and the same keys unless two of them have one hash.
-/
import ConfigServer.ChampIterator

namespace ConfigServer

namespace Champ

open List

variable {K V V' : Type*} {hasher : K → Hash}

/-- The elements of a slot are those below the node whose hash has the slot's index. -/
theorem keys_slot {n shift : Nat} {node : Inner (Σ _ : K, V) (Node K V n)}
    (hr : Routed hasher (n + 1) shift node) (i : Fin branches) :
    ((node.slot i).elements (toList n)).keys ~
      (toList (n + 1) node).keys.filter fun k => idx (hasher k) shift = i := by
  obtain ⟨others, hold, hothers⟩ := Inner.elements_split (toList n) node i
  have hkeys : (toList (n + 1) node).keys ~ ((node.slot i).elements (toList n)).keys ++ others.keys :=
    (hold.map Sigma.fst).trans (Perm.of_eq keys_append)
  have hin : ((node.slot i).elements (toList n)).keys.filter (fun k => idx (hasher k) shift = i) =
      ((node.slot i).elements (toList n)).keys := by
    refine List.filter_eq_self.2 fun k hk => ?_
    obtain ⟨x, hx⟩ := exists_of_mem_keys hk
    exact decide_eq_true ((hr i).index _ hx)
  have hout : others.keys.filter (fun k => idx (hasher k) shift = i) = [] := by
    refine List.filter_eq_nil_iff.2 fun k hk => ?_
    obtain ⟨x, hx⟩ := exists_of_mem_keys hk
    obtain ⟨j, hj, hmem⟩ := hothers _ hx
    rw [decide_eq_true_iff]
    exact fun hi => hj ((hr j).index _ hmem ▸ hi)
  refine Perm.symm ((hkeys.filter _).trans (Perm.of_eq ?_))
  rw [List.filter_append, hin, hout, List.append_nil]

/-- Slots with the same keys are both empty, hold one element each, or a child each. -/
theorem slots_alike {n shift : Nat} {i : Fin branches} {s : Slot (Σ _ : K, V) (Node K V n)}
    {s' : Slot (Σ _ : K, V') (Node K V' n)}
    (hs : s.Routed (fun v => idx (hasher v.1) shift) (toList n) (Routed hasher n (shift + bits)) i)
    (hs' : s'.Routed (fun v => idx (hasher v.1) shift) (toList n) (Routed hasher n (shift + bits)) i)
    (hkeys : (s.elements (toList n)).keys ~ (s'.elements (toList n)).keys) :
    (s = .empty ∧ s' = .empty) ∨ (∃ v v', v.1 = v'.1 ∧ s = .value v ∧ s' = .value v') ∨
      ∃ c c', (toList n c).keys ~ (toList n c').keys ∧ s = .child c ∧ s' = .child c' := by
  have hlen : (s.elements (toList n)).length = (s'.elements (toList n)).length := by
    have h := hkeys.length_eq
    rwa [keys, keys, List.length_map, List.length_map] at h
  cases s with
  | empty =>
    cases s' with
    | empty => exact .inl ⟨rfl, rfl⟩
    | value v' => cases hlen
    | child c' =>
      have := (hs'.child c' rfl).2
      simp only [Slot.elements, List.length_nil] at hlen
      omega
  | value v =>
    cases s' with
    | empty => cases hlen
    | value v' => exact .inr (.inl ⟨v, v', List.singleton_perm_singleton.1 hkeys, rfl, rfl⟩)
    | child c' =>
      have := (hs'.child c' rfl).2
      simp only [Slot.elements, List.length_singleton] at hlen
      omega
  | child c =>
    have := (hs.child c rfl).2
    cases s' with
    | empty =>
      simp only [Slot.elements, List.length_nil] at hlen
      omega
    | value v' =>
      simp only [Slot.elements, List.length_singleton] at hlen
      omega
    | child c' => exact .inr (.inr ⟨c, c', hkeys, rfl, rfl⟩)

/-- Two hashes with the same bits below `shift`. -/
def Agree (shift : Nat) (hash hash' : Hash) : Prop := ∀ k < shift, hash.getLsbD k = hash'.getLsbD k

theorem Agree.next {shift : Nat} {hash hash' : Hash} (h : Agree shift hash hash')
    (hidx : idx hash shift = idx hash' shift) : Agree (shift + bits) hash hash' := by
  intro k hk
  by_cases hlt : k < shift
  · exact h k hlt
  · have hbit := idx_eq_iff.1 hidx (k - shift) (by omega)
    rwa [show shift + (k - shift) = k by omega] at hbit

theorem Agree.eq {shift : Nat} {hash hash' : Hash} (h : Agree shift hash hash') (hshift : 64 ≤ shift) :
    hash = hash' :=
  BitVec.eq_of_getLsbD_eq fun k hk => h k (by omega)

/-- The hashes of the keys of some elements. -/
def hashes (hasher : K → Hash) (l : List (Σ _ : K, V)) : List Hash := l.map fun v => hasher v.1

theorem hashes_eq_keys (l : List (Σ _ : K, V)) : hashes hasher l = l.keys.map hasher := List.map_map.symm

/-- Elements with one hash in common: any order of them has the same hashes. -/
theorem hashes_of_agree {l : List (Σ _ : K, V)} {l' : List (Σ _ : K, V')} (hkeys : l.keys ~ l'.keys)
    (h : ∀ k ∈ l.keys, ∀ k' ∈ l.keys, hasher k = hasher k') : hashes hasher l = hashes hasher l' := by
  have hperm : hashes hasher l' ~ hashes hasher l := by
    rw [hashes_eq_keys, hashes_eq_keys]
    exact (hkeys.map hasher).symm
  cases l with
  | nil => exact (List.perm_nil.1 hperm).symm
  | cons v l =>
    have hall : hashes hasher (v :: l) = List.replicate (v :: l).length (hasher v.1) := by
      rw [hashes_eq_keys]
      refine List.eq_replicate_iff.2 ⟨by rw [List.length_map, keys, List.length_map], fun x hx => ?_⟩
      obtain ⟨k, hk, rfl⟩ := List.mem_map.1 hx
      exact h k hk v.1 (List.mem_cons_self ..)
    rw [hall] at hperm ⊢
    exact (List.perm_replicate.1 hperm).symm

/-- Two nodes over the same keys visit the same hashes in the same order. -/
theorem hashes_toList (n shift : Nat) (a : Node K V n) (b : Node K V' n) (ha : Routed hasher n shift a)
    (hb : Routed hasher n shift b) (hkeys : (toList n a).keys ~ (toList n b).keys)
    (hagree : ∀ k ∈ (toList n a).keys, ∀ k' ∈ (toList n a).keys, Agree shift (hasher k) (hasher k'))
    (hshift : 64 ≤ shift + bits * n) : hashes hasher (toList n a) = hashes hasher (toList n b) := by
  induction n generalizing shift with
  | zero => exact hashes_of_agree hkeys fun k hk k' hk' => (hagree k hk k' hk').eq hshift
  | succ n ih =>
    change Inner (Σ _ : K, V) (Node K V n) at a
    change Inner (Σ _ : K, V') (Node K V' n) at b
    have halike := fun i => slots_alike (ha i) (hb i)
      ((keys_slot ha i).trans ((hkeys.filter _).trans (keys_slot hb i).symm))
    have hown : ∀ i, hashes hasher (a.slot i).value?.toList = hashes hasher (b.slot i).value?.toList := by
      intro i
      rcases halike i with ⟨h, h'⟩ | ⟨v, v', hv, h, h'⟩ | ⟨c, c', -, h, h'⟩
      · rw [h, h']; rfl
      · rw [h, h']
        exact congrArg (fun k => [hasher k]) hv
      · rw [h, h']; rfl
    have hbelow : ∀ i, hashes hasher (((a.slot i).child?.map (toList n)).getD []) =
        hashes hasher (((b.slot i).child?.map (toList n)).getD []) := by
      intro i
      rcases halike i with ⟨h, h'⟩ | ⟨v, v', -, h, h'⟩ | ⟨c, c', hc, h, h'⟩
      · rw [h, h']; rfl
      · rw [h, h']; rfl
      · rw [h, h']
        have hin : ∀ k ∈ (toList n c).keys,
            k ∈ (toList (n + 1) a).keys.filter fun k => idx (hasher k) shift = i := by
          intro k hk
          refine (keys_slot ha i).mem_iff.1 ?_
          rw [h]
          exact hk
        refine ih (shift + bits) c c' ((ha i).child c h).1 ((hb i).child c' h').1 hc ?_ ?_
        · intro k hk k' hk'
          obtain ⟨hmem, hidx⟩ := List.mem_filter.1 (hin k hk)
          obtain ⟨hmem', hidx'⟩ := List.mem_filter.1 (hin k' hk')
          exact (hagree k hmem k' hmem').next
            ((of_decide_eq_true hidx).trans (of_decide_eq_true hidx').symm)
        · rw [Nat.mul_succ] at hshift
          omega
    have hread : hashes hasher (a.elements (toList n)) = hashes hasher (b.elements (toList n)) := by
      rw [Inner.elements_eq, Inner.elements_eq]
      simp only [hashes, List.map_append, List.map_flatMap]
      simp only [hashes] at hown hbelow
      simp only [hown, hbelow]
    exact hread

end Champ

namespace ImmerMap

open Champ

variable {K V V' : Type*} {hasher : K → Hash}

/-- However two maps with the same keys were made, iterating over them visits the same hashes in the
same order. -/
theorem hashes_elements (m : ImmerMap V hasher) (m' : ImmerMap V' hasher)
    (hkeys : ∀ k, k ∈ m.elements.keys ↔ k ∈ m'.elements.keys) :
    hashes hasher m.elements = hashes hasher m'.elements :=
  hashes_toList maxDepth 0 m.root m'.root m.routed m'.routed
    ((List.perm_ext_iff_of_nodup m.nodupKeys m'.nodupKeys).2 hkeys)
    (fun _ _ _ _ k hk => absurd hk (Nat.not_lt_zero k)) (by decide)

/-- Where no two keys have one hash, it visits the same keys in the same order. -/
theorem keys_elements (m : ImmerMap V hasher) (m' : ImmerMap V' hasher)
    (hkeys : ∀ k, k ∈ m.elements.keys ↔ k ∈ m'.elements.keys)
    (hinj : ∀ k ∈ m.elements.keys, ∀ k' ∈ m.elements.keys, hasher k = hasher k' → k = k') :
    m.elements.keys = m'.elements.keys := by
  have h := m.hashes_elements m' hkeys
  rw [hashes_eq_keys, hashes_eq_keys] at h
  have hlen : m.elements.keys.length = m'.elements.keys.length := by
    have hmap := congrArg List.length h
    rwa [List.length_map, List.length_map] at hmap
  refine List.ext_getElem hlen fun i hi hi' => ?_
  refine hinj _ (List.getElem_mem hi) _ ((hkeys _).2 (List.getElem_mem hi')) ?_
  have hget := List.getElem_of_eq h (i := i) (by rwa [List.length_map])
  rwa [List.getElem_map, List.getElem_map] at hget

variable [DecidableEq K]

theorem mem_keys_ofAssigns (hasher : K → Hash) (as : List (Assign K V)) (k : K) :
    k ∈ (ofAssigns hasher as).elements.keys ↔ k ∈ as.map Assign.key := by
  rw [← isSome_lastAssigned, ← lookup_ofAssigns hasher]
  exact List.dlookup_isSome.symm

/-- **The order of iteration depends on the set of keys alone.** Two maps that
were given the same keys, in any order, as often as one likes, with any values,
by copies or through transients, visit the same hashes in the same order, and the
same keys in the same order if no two of them have one hash. -/
theorem ofAssigns_order (hasher : K → Hash) (as : List (Assign K V)) (as' : List (Assign K V'))
    (h : ∀ k, k ∈ as.map Assign.key ↔ k ∈ as'.map Assign.key) :
    hashes hasher (ofAssigns hasher as).visited = hashes hasher (ofAssigns hasher as').visited ∧
      ((∀ k ∈ as.map Assign.key, ∀ k' ∈ as.map Assign.key, hasher k = hasher k' → k = k') →
        (ofAssigns hasher as).visited.keys = (ofAssigns hasher as').visited.keys) := by
  have hkeys : ∀ k, k ∈ (ofAssigns hasher as).elements.keys ↔ k ∈ (ofAssigns hasher as').elements.keys :=
    fun k => (mem_keys_ofAssigns hasher as k).trans ((h k).trans (mem_keys_ofAssigns hasher as' k).symm)
  rw [visited_eq, visited_eq]
  refine ⟨hashes_elements _ _ hkeys, fun hinj => keys_elements _ _ hkeys fun k hk k' hk' => ?_⟩
  exact hinj k ((mem_keys_ofAssigns hasher as k).1 hk) k' ((mem_keys_ofAssigns hasher as k').1 hk')

/-- The keys 1 and 33 have the same first index. -/
theorem ofAssigns_order_twoWays :
    (ofAssigns (BitVec.ofNat 64) [.set 1 10, .setMut (fun _ => true) 33 20, .set 2 30, .set 1 40]).visited.keys =
      (ofAssigns (BitVec.ofNat 64) [.set 33 (), .set 2 (), .setMut (fun _ => true) 1 ()]).visited.keys := by
  refine (ofAssigns_order (BitVec.ofNat 64) _ _ fun k => ?_).2 ?_
  · simp only [List.map_cons, List.map_nil, Assign.key, List.mem_cons, List.not_mem_nil, or_false]
    omega
  · decide

/-- Keys with one hash stand in the order in which they came last. -/
example : (ofAssigns (fun _ => 0) [.set 1 (), .set 2 ()]).elements.keys = [2, 1] ∧
    (ofAssigns (fun _ => 0) [.set 2 (), .set 1 ()]).elements.keys = [1, 2] := by
  decide

end ImmerMap

end ConfigServer
