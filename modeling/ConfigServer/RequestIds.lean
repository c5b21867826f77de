/-
The request ids of a client. Every `get_command` draws the next id when it is
created: 1, 2, up to 65535 and then 1 again, never 0. Nothing keeps a client
from having more than 65535 requests outstanding, and `spammer` sends a
million without waiting, so an id names a request only among those created
less than 65535 apart.
-/
import Mathlib.Data.List.Nodup
import Mathlib.Logic.Function.Iterate
import ConfigServer.Lib.Runs
import ConfigServer.Protocol

namespace ConfigServer

open Runs

/-! ## The client -/

/-- A client's GETs. Each is known by its place in `created`. -/
structure Requester where
  /-- The static `id` of `next_request_id`. -/
  id : UInt16 := 0
  created : List GetCommand := []
  sent : List Nat := []
  /-- Sent, and the response not yet received. -/
  outstanding : List Nat := []
deriving DecidableEq

namespace Requester

inductive Action
  | create (key : Bytes)
  | send (i : Nat)
  | receive (i : Nat)
deriving DecidableEq

/-- The constructor of `get_command`. -/
def create (c : Requester) (key : Bytes) : Requester :=
  let id := GetCommand.nextRequestId c.id
  { c with id, created := c.created ++ [⟨key, id⟩] }

/-- A GET is sent once, after it was created, and is answered once, after it was sent. -/
def step (c : Requester) : Action → Option Requester
  | .create key => some (c.create key)
  | .send i =>
    if i < c.created.length ∧ i ∉ c.sent then
      some { c with sent := i :: c.sent, outstanding := i :: c.outstanding }
    else
      none
  | .receive i =>
    if i ∈ c.outstanding then some { c with outstanding := c.outstanding.erase i } else none

/-- The request id of the `i`-th GET created. -/
def requestId (c : Requester) (i : Nat) : Option UInt16 := c.created[i]?.map GetCommand.requestId

/-! ## The ids drawn -/

theorem nextRequestId_toNat {id : UInt16} {n : Nat} (h : id.toNat = n % 65535 + 1) :
    (GetCommand.nextRequestId id).toNat = (n + 1) % 65535 + 1 := by
  have hadd : (id + 1).toNat = (id.toNat + 1) % 65536 := UInt16.toNat_add id 1
  unfold GetCommand.nextRequestId
  dsimp only
  split
  · next hzero =>
    rw [hzero, h, UInt16.toNat_zero] at hadd
    show 1 = (n + 1) % 65535 + 1
    omega
  · next hne =>
    have hpos : (id + 1).toNat ≠ 0 := fun h0 => hne (UInt16.toNat_inj.1 h0)
    rw [hadd, h] at hpos
    rw [hadd, h]
    omega

/-- **The `n`-th id drawn, counting from 0, is `n % 65535 + 1`.** -/
theorem iterate_nextRequestId (n : Nat) : (GetCommand.nextRequestId^[n + 1] 0).toNat = n % 65535 + 1 := by
  induction n with
  | zero => rfl
  | succ n ih =>
    rw [Function.iterate_succ_apply']
    exact nextRequestId_toNat ih

theorem iterate_nextRequestId_eq_iff {i j : Nat} (h : i ≤ j) :
    GetCommand.nextRequestId^[i + 1] 0 = GetCommand.nextRequestId^[j + 1] 0 ↔ 65535 ∣ j - i := by
  rw [← UInt16.toNat_inj, iterate_nextRequestId, iterate_nextRequestId]
  omega

structure Inv (c : Requester) : Prop where
  id_eq : c.id = GetCommand.nextRequestId^[c.created.length] 0
  ids {i : Nat} : i < c.created.length → c.requestId i = some (GetCommand.nextRequestId^[i + 1] 0)
  outstanding_lt {i : Nat} : i ∈ c.outstanding → i < c.created.length
  outstanding_sent {i : Nat} : i ∈ c.outstanding → i ∈ c.sent
  nodup : c.outstanding.Nodup

theorem inv_init : Inv {} where
  id_eq := rfl
  ids h := by simp at h
  outstanding_lt h := by simp at h
  outstanding_sent h := by simp at h
  nodup := List.nodup_nil

theorem create_requestId {c : Requester} {key : Bytes} {i : Nat} (h : i < c.created.length) :
    (c.create key).requestId i = c.requestId i := by
  simp only [requestId, create, List.getElem?_append_left h]

theorem Inv.create {c : Requester} (h : Inv c) (key : Bytes) : Inv (c.create key) := by
  have hlen : (c.create key).created.length = c.created.length + 1 := by simp [Requester.create]
  have hid : (c.create key).id = GetCommand.nextRequestId^[c.created.length + 1] 0 := by
    rw [Function.iterate_succ_apply', ← h.id_eq]
    rfl
  refine ⟨by rw [hlen, hid], ?_, ?_, h.outstanding_sent, h.nodup⟩
  · intro i hi
    rw [hlen] at hi
    rcases Nat.lt_succ_iff_lt_or_eq.1 hi with hlt | rfl
    · rw [create_requestId hlt, h.ids hlt]
    · rw [← hid]
      simp [requestId, Requester.create]
  · intro i hi
    have hlt := h.outstanding_lt hi
    omega

theorem Inv.step {c c' : Requester} {action : Action} (h : Inv c) (hs : c.step action = some c') : Inv c' := by
  cases action with
  | create key => exact Option.some.inj hs ▸ h.create key
  | send i =>
    simp only [Requester.step] at hs
    split at hs
    · next hi =>
      cases hs
      refine ⟨h.id_eq, h.ids, ?_, ?_, ?_⟩
      · intro j hj
        rcases List.mem_cons.1 hj with rfl | hj
        · exact hi.1
        · exact h.outstanding_lt hj
      · intro j hj
        rcases List.mem_cons.1 hj with rfl | hj
        · exact List.mem_cons_self
        · exact List.mem_cons_of_mem i (h.outstanding_sent hj)
      · exact List.nodup_cons.2 ⟨fun hmem => hi.2 (h.outstanding_sent hmem), h.nodup⟩
    · cases hs
  | receive i =>
    simp only [Requester.step] at hs
    split at hs
    · cases hs
      have hmem {j : Nat} (hj : j ∈ c.outstanding.erase i) : j ∈ c.outstanding := List.mem_of_mem_erase hj
      exact ⟨h.id_eq, h.ids, fun hj => h.outstanding_lt (hmem hj), fun hj => h.outstanding_sent (hmem hj),
        h.nodup.erase i⟩
    · cases hs

theorem run_inv {actions : List Action} {c : Requester} (hr : run step {} actions = some c) : Inv c :=
  invariant (fun _ _ _ h hs => h.step hs) hr inv_init

theorem Inv.requestId_eq_iff {c : Requester} (h : Inv c) {i j : Nat} (hij : i ≤ j) (hi : i ∈ c.outstanding)
    (hj : j ∈ c.outstanding) : c.requestId i = c.requestId j ↔ 65535 ∣ j - i := by
  rw [h.ids (h.outstanding_lt hi), h.ids (h.outstanding_lt hj), Option.some.injEq]
  exact iterate_nextRequestId_eq_iff hij

/-- **In every state of every run two outstanding GETs carry the same id
exactly when a multiple of 65535 GETs were created from the one to the other.
While the outstanding ones are among the last 65535 created, each id is that of
one of them only.** -/
theorem run_requestIds {actions : List Action} {c : Requester} (hr : run step {} actions = some c) :
    (∀ i ∈ c.outstanding, ∀ j ∈ c.outstanding, i ≤ j → (c.requestId i = c.requestId j ↔ 65535 ∣ j - i)) ∧
      ((∀ i ∈ c.outstanding, c.created.length ≤ i + 65535) → (c.outstanding.map c.requestId).Nodup) := by
  have h := run_inv hr
  refine ⟨fun i hi j hj hij => h.requestId_eq_iff hij hi hj, ?_⟩
  intro hrecent
  have hinj (i j : Nat) (hi : i ∈ c.outstanding) (hj : j ∈ c.outstanding) (hij : i ≤ j)
      (heq : c.requestId i = c.requestId j) : i = j := by
    obtain ⟨k, hk⟩ := (h.requestId_eq_iff hij hi hj).1 heq
    have hold := hrecent i hi
    have hlt := h.outstanding_lt hj
    omega
  refine List.Nodup.map_on (fun i hi j hj heq => ?_) h.nodup
  rcases Nat.le_total i j with hij | hji
  · exact hinj i j hi hj hij heq
  · exact (hinj j i hj hi hji heq.symm).symm

theorem run_requestIds_twoSent :
    ∃ c, run step {} [.create [97], .create [98], .send 1, .send 0] = some c ∧ c.outstanding = [0, 1] ∧
      (∀ i ∈ c.outstanding, ∀ j ∈ c.outstanding, i ≤ j → (c.requestId i = c.requestId j ↔ 65535 ∣ j - i)) ∧
      ((∀ i ∈ c.outstanding, c.created.length ≤ i + 65535) → (c.outstanding.map c.requestId).Nodup) := by
  have hr : run step {} [.create [97], .create [98], .send 1, .send 0] =
      some { id := 2, created := [⟨[97], 1⟩, ⟨[98], 2⟩], sent := [0, 1], outstanding := [0, 1] } := rfl
  exact ⟨_, hr, rfl, run_requestIds hr⟩

/-! ## More than 65535 requests -/

/-- The client's loop: create a GET and send it, `n` times. -/
def sendLoop (n : Nat) : List Action := (List.range n).flatMap fun i => [.create [], .send i]

theorem run_sendLoop (n : Nat) :
    ∃ c, run step {} (sendLoop n) = some c ∧ c.created.length = n ∧ (∀ i ∈ c.sent, i < n) ∧
      ∀ i < n, i ∈ c.outstanding := by
  induction n with
  | zero => exact ⟨{}, rfl, rfl, by simp, by simp⟩
  | succ n ih =>
    obtain ⟨c, hr, hlen, hsent, hout⟩ := ih
    have hnew : n ∉ (c.create []).sent := fun h => Nat.lt_irrefl n (hsent n h)
    have hcreated : (c.create []).created.length = n + 1 := by simp [Requester.create, hlen]
    refine ⟨{ c.create [] with sent := n :: c.sent, outstanding := n :: c.outstanding }, ?_, hcreated, ?_, ?_⟩
    · rw [sendLoop, List.range_succ, List.flatMap_append, run_append]
      refine ⟨c, hr, ?_⟩
      show run step c [.create [], .send n] = _
      have hsend : n < (c.create []).created.length ∧ n ∉ (c.create []).sent := ⟨by omega, hnew⟩
      simp only [run, Requester.step, Option.bind_some, hsend, not_false_eq_true, and_self, if_true]
      rfl
    · intro i hi
      rcases List.mem_cons.1 hi with rfl | hi
      · omega
      · have hlt := hsent i hi
        omega
    · intro i hi
      rcases Nat.lt_succ_iff_lt_or_eq.1 hi with hlt | rfl
      · exact List.mem_cons_of_mem n (hout i hlt)
      · exact List.mem_cons_self

/-- The first and the 65536th GET of the loop are outstanding with the same id. -/
theorem sendLoop_sameId :
    ¬ ∀ (actions : List Action) (c : Requester), run step {} actions = some c →
      ∀ i ∈ c.outstanding, ∀ j ∈ c.outstanding, i ≠ j → c.requestId i ≠ c.requestId j := by
  intro h
  obtain ⟨c, hr, -, -, hout⟩ := run_sendLoop 65536
  have hfirst : 0 ∈ c.outstanding := hout 0 (by omega)
  have hlast : 65535 ∈ c.outstanding := hout 65535 (by omega)
  refine h _ c hr 0 hfirst 65535 hlast (by omega) ?_
  exact ((run_inv hr).requestId_eq_iff (Nat.zero_le _) hfirst hlast).2 ⟨1, rfl⟩

end Requester

end ConfigServer
