/-
A flush that fails. The flag is exchanged before the file is opened, and the
file is opened truncated before anything is written to it: a flush that throws
leaves the flag down, so that no later flush tries again, and once the file
was opened it leaves no more of it than what was written before the failure.
-/
import ConfigServer.StoreFileFacts

namespace ConfigServer

open LittleEndian

namespace OFStream

/-- Two writes fail where one of all the bytes fails. -/
theorem write_write (out : OFStream) (bytes bytes' : Bytes) :
    (out.write bytes).write bytes' = out.write (bytes ++ bytes') := by
  obtain ⟨contents, room, fail⟩ := out
  cases fail with
  | true => rfl
  | false =>
    cases room with
    | none => simp [write]
    | some room =>
      by_cases hroom : room < bytes.length
      · have htake : (bytes ++ bytes').take room = bytes.take room :=
          List.take_append_of_le_length (Nat.le_of_lt hroom)
        have hleft : room - bytes.length = room - (bytes.length + bytes'.length) := by omega
        have hfail : room < bytes.length + bytes'.length := by omega
        simp [write, hroom, htake, hleft, hfail]
      · have htake : (bytes ++ bytes').take room = bytes ++ bytes'.take (room - bytes.length) := by
          rw [List.take_append, List.take_of_length_le (by omega)]
        have hfail : room - bytes.length < bytes'.length ↔ room < bytes.length + bytes'.length := by omega
        simp [write, hroom, htake, hfail, List.take_of_length_le (Nat.le_of_not_lt hroom), Nat.sub_sub]

end OFStream

namespace Store

/-- What a flush that fails must leave behind: the changes are still to be
saved, and the file is the one that was there. -/
structure Recoverable (s s' : Store) : Prop where
  dirty : s'.dirty = true
  file : s'.file = s.file

theorem writePair_eq (s : Store) (out : OFStream) (pair : Binding) :
    s.writePair out pair = out.write (record (pair.1, (s.heap pair.2).value)) := by
  simp only [writePair, OFStream.write_write, record, List.append_assoc]

theorem writePairs_eq (s : Store) (order : List Binding) (out : OFStream) (bytes : Bytes) :
    order.foldl s.writePair (out.write bytes) = out.write (bytes ++ (s.pairsOf order).flatMap record) := by
  induction order generalizing bytes with
  | nil => simp [pairsOf]
  | cons pair order ih =>
    rw [List.foldl_cons, writePair_eq, OFStream.write_write, ih]
    simp [pairsOf]

/-- A flush of a dirty store writes its image, as far as the file takes it. -/
theorem flushIfDirty_dirty {s : Store} (hdirty : s.dirty = true) {order : List Binding}
    (horder : s.root.value.Enumerates order) {disk : Disk} (hopens : disk.opens = true) :
    s.flushIfDirty order disk =
      let out := OFStream.write { room := disk.room } (image (s.pairsOf order))
      (if out.fail then .error "Failed to write data to file" else .ok true,
        { s with dirty := false, file := some out.contents }) := by
  have hlen : (s.pairsOf order).length = order.length := List.length_map _
  simp only [flushIfDirty, hdirty, hopens, horder.size_eq, Bool.not_true, Bool.false_eq_true, if_false]
  rw [show writePair { s with dirty := false } = s.writePair from rfl, writePairs_eq, image, hlen]
  split <;> rfl

theorem flushIfDirty_clean {s : Store} (hclean : s.dirty = false) (order : List Binding) (disk : Disk) :
    s.flushIfDirty order disk = (.ok false, s) := by
  simp [flushIfDirty, hclean]

/-- The image does not fit: what was written is a strict prefix of it. -/
theorem write_fail {room : Option Nat} {bytes : Bytes} (h : (OFStream.write { room } bytes).fail = true) :
    ∃ n, room = some n ∧ n < bytes.length ∧ (OFStream.write { room } bytes).contents = bytes.take n := by
  cases room with
  | none => cases h
  | some n =>
    have hn : n < bytes.length := by simpa [OFStream.write] using h
    exact ⟨n, rfl, hn, by simp [OFStream.write]⟩

/-- **A flush that throws, whatever the store and wherever it fails, is not
recoverable: the flag is down, so no later flush writes anything, and of the
file there is left what was there only if it could not be opened, else a
strict prefix of the new image.** -/
theorem flushIfDirty_throws {s s' : Store} {order : List Binding} (horder : s.root.value.Enumerates order)
    {disk : Disk} {what : String} (h : s.flushIfDirty order disk = (.error what, s')) :
    ¬ s.Recoverable s' ∧ (∀ order' disk', s'.flushIfDirty order' disk' = (.ok false, s')) ∧
      (disk.opens = false ∧ s'.file = s.file ∨
        ∃ n, disk.opens = true ∧ disk.room = some n ∧ n < (image (s.pairsOf order)).length ∧
          s'.file = some ((image (s.pairsOf order)).take n)) := by
  have hdirty : s.dirty = true := by
    by_contra hclean
    rw [flushIfDirty_clean (by simpa using hclean)] at h
    cases h
  have hafter : s'.dirty = false ∧ (disk.opens = false ∧ s'.file = s.file ∨
      ∃ n, disk.opens = true ∧ disk.room = some n ∧ n < (image (s.pairsOf order)).length ∧
        s'.file = some ((image (s.pairsOf order)).take n)) := by
    cases hopens : disk.opens with
    | false =>
      simp only [flushIfDirty, hdirty, hopens, Bool.not_true, Bool.not_false, Bool.false_eq_true, if_false,
        if_true, Prod.mk.injEq] at h
      obtain ⟨-, rfl⟩ := h
      exact ⟨rfl, .inl ⟨rfl, rfl⟩⟩
    | true =>
      rw [flushIfDirty_dirty hdirty horder hopens] at h
      obtain ⟨hresult, rfl⟩ := Prod.mk.inj h
      split at hresult
      · next hfail =>
        obtain ⟨n, hroom, hn, hcontents⟩ := write_fail hfail
        exact ⟨rfl, .inr ⟨n, rfl, hroom, hn, congrArg some hcontents⟩⟩
      · cases hresult
  refine ⟨fun hrecoverable => ?_, flushIfDirty_clean hafter.1, hafter.2⟩
  exact absurd (hafter.1.symm.trans hrecoverable.dirty) (by decide)

/-- A store with one key and a file of before. -/
def oneKey : Store := { ({} : Store).set [107] [1] with file := some (image []) }

/-- A disk that is full after the number of keys. -/
def fullDisk : Disk := { room := some 8 }

theorem flushIfDirty_throws_oneKey :
    ∃ s', oneKey.flushIfDirty [⟨[107], 0⟩] fullDisk = (.error "Failed to write data to file", s') ∧
      ¬ oneKey.Recoverable s' ∧ (∀ order' disk', s'.flushIfDirty order' disk' = (.ok false, s')) ∧
      (fullDisk.opens = false ∧ s'.file = oneKey.file ∨
        ∃ n, fullDisk.opens = true ∧ fullDisk.room = some n ∧
          n < (image (oneKey.pairsOf [⟨[107], 0⟩])).length ∧
          s'.file = some ((image (oneKey.pairsOf [⟨[107], 0⟩])).take n)) := by
  have horder : oneKey.root.value.Enumerates [⟨[107], 0⟩] := by decide
  obtain ⟨s', h⟩ : ∃ s', oneKey.flushIfDirty [⟨[107], 0⟩] fullDisk =
      (.error "Failed to write data to file", s') := ⟨_, rfl⟩
  exact ⟨s', h, flushIfDirty_throws horder h⟩

/-- The file cannot be opened, and the flag is down all the same. -/
theorem cannotOpen_not_recoverable :
    ¬ ∀ (s s' : Store) (order : List Binding) (disk : Disk) (what : String),
      s.root.value.Enumerates order → s.flushIfDirty order disk = (.error what, s') → s.Recoverable s' := by
  intro h
  have hrecoverable :=
    h oneKey { oneKey with dirty := false } [⟨[107], 0⟩] { opens := false } _ (by decide) rfl
  exact absurd hrecoverable.dirty (by decide)

end Store

end ConfigServer
