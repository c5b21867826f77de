/-
The grammars of the two `read`s, byte by byte, and the length prefix of what
`serialize` writes. `readServer` and `readClient` accept exactly the payloads
of their grammar and throw on every other buffer, and a command they dispatch
serializes to the bytes it was read from. The prefix is the size cut to 32
bits: `memory_writer::write` throws on a string of 4 GiB, but nothing looks at
their sum, so a message can be too long for its own prefix.
-/
import ConfigServer.Connection
import ConfigServer.ReplySize

namespace ConfigServer

open LittleEndian

/-! ## Grammars -/

/-- The payloads a server accepts, with the command each is read as. -/
inductive ServerGrammar : Bytes → ServerCall → Prop
  | get {key : Bytes} {requestId : UInt16} (hkey : key.length < 2 ^ 32) (hid : requestId ≠ 0) :
    ServerGrammar ([0] ++ leBytes 4 key.length ++ key ++ leBytes 2 requestId.toNat) (.get ⟨key, requestId⟩)
  | set {key value : Bytes} (hkey : key.length < 2 ^ 32) (hvalue : value.length < 2 ^ 32) :
    ServerGrammar ([1] ++ leBytes 4 key.length ++ key ++ leBytes 4 value.length ++ value) (.set ⟨key, value⟩)

/-- The payloads a client accepts. -/
inductive ClientGrammar : Bytes → ClientCall → Prop
  | getResponse {key value : Bytes} {requestId : UInt16} {reads writes : UInt64}
    (hkey : key.length < 2 ^ 32) (hid : requestId ≠ 0) (hvalue : value.length < 2 ^ 32) :
    ClientGrammar
      ([2] ++ leBytes 4 key.length ++ key ++ leBytes 2 requestId.toNat ++ leBytes 8 reads.toNat ++
        leBytes 8 writes.toNat ++ leBytes 4 value.length ++ value)
      ⟨key, requestId, reads, writes, value⟩

section

variable {C : Type} (read : Bytes → Except String C)

/-- `read` dispatches the command of a buffer of the grammar, and throws on any other buffer. -/
def AcceptsExactly (grammar : Bytes → C → Prop) (b : Bytes) : Prop :=
  (∀ call, read b = .ok call ↔ grammar b call) ∧
    ((¬ ∃ call, grammar b call) → ∃ what, read b = .error what)

/-- A command dispatched is written back as the bytes it was read from after
their length, and was read from no others. -/
def Canonical (serialize : C → Except String MemoryWriter) (b : Bytes) : Prop :=
  ∀ call, read b = .ok call → b.length + 4 < 2 ^ 32 →
    serialize call = .ok ⟨leBytes 4 (b.length + 4) ++ b⟩ ∧
      ∀ b', b'.length + 4 < 2 ^ 32 → read b' = .ok call → b' = b

variable {read}

/-- A `read` that succeeds exactly on the grammar throws everywhere else. -/
theorem acceptsExactly_of_ok {grammar : Bytes → C → Prop} {b : Bytes}
    (h : ∀ call, read b = .ok call ↔ grammar b call) : AcceptsExactly read grammar b := by
  refine ⟨h, fun hnone => ?_⟩
  cases hread : read b with
  | error what => exact ⟨what, rfl⟩
  | ok call => exact absurd ⟨call, (h call).1 hread⟩ hnone

end

theorem serverGrammar_iff {b : Bytes} {call : ServerCall} :
    ServerGrammar b call ↔ call.Good ∧ b = call.payload := by
  constructor
  · intro h
    cases h with
    | get hkey hid =>
      exact ⟨⟨hkey, hid⟩, by simp [ServerCall.payload, Format.payload, getFormat, CommandType.toU8,
        MemoryWriter.stringBytes]⟩
    | set hkey hvalue =>
      exact ⟨⟨⟨hkey, hvalue⟩, trivial⟩, by simp [ServerCall.payload, Format.payload, setFormat,
        CommandType.toU8, MemoryWriter.stringBytes]⟩
  · rintro ⟨hgood, rfl⟩
    cases call with
    | get cmd =>
      have h := ServerGrammar.get hgood.1 hgood.2
      simpa [ServerCall.payload, Format.payload, getFormat, CommandType.toU8,
        MemoryWriter.stringBytes] using h
    | set cmd =>
      have h := ServerGrammar.set hgood.1.1 hgood.1.2
      simpa [ServerCall.payload, Format.payload, setFormat, CommandType.toU8,
        MemoryWriter.stringBytes] using h

theorem clientGrammar_iff {b : Bytes} {call : ClientCall} :
    ClientGrammar b call ↔ responseFormat.Good call ∧ b = responseFormat.payload call := by
  constructor
  · intro h
    cases h with
    | getResponse hkey hid hvalue =>
      exact ⟨⟨⟨hkey, hvalue⟩, hid⟩, by simp [Format.payload, responseFormat, CommandType.toU8,
        MemoryWriter.stringBytes]⟩
  · rintro ⟨hgood, rfl⟩
    have h := @ClientGrammar.getResponse call.key call.value call.requestId call.reads call.writes
      hgood.1.1 hgood.2 hgood.1.2
    simpa [Format.payload, responseFormat, CommandType.toU8, MemoryWriter.stringBytes] using h

/-- A good command is written as its payload after the length of both. -/
theorem Format.serialize_payload {T : Type} (F : Format T) {c : T} (h : F.Good c) :
    F.serialize c = .ok ⟨leBytes 4 ((F.payload c).length + 4) ++ F.payload c⟩ := by
  have hlen : (F.payload c).length + 4 = (F.body c).length + 5 := by
    simp only [Format.payload, List.length_cons]
  rw [hlen]
  exact F.serialize_ok c h.1

/-- **Both grammars, for every buffer a `std::vector` can hold.** A server and
a client dispatch one command on a payload of their grammar and throw on any
other buffer, and what is dispatched serializes to the payload's own message. -/
theorem read_canonical {b : Bytes} (hlen : b.length < 2 ^ 63) :
    (AcceptsExactly readServer ServerGrammar b ∧ Canonical readServer ServerCall.serialize b) ∧
      AcceptsExactly readClient ClientGrammar b ∧ Canonical readClient GetCommandResponse.serialize b := by
  have hserver : ∀ {b' : Bytes} {call : ServerCall}, b'.length + 4 < 2 ^ 32 → readServer b' = .ok call →
      call.Good ∧ b' = call.payload := fun hshort => (readServer_ok (by omega)).1
  have hclient : ∀ {b' : Bytes} {call : ClientCall}, b'.length + 4 < 2 ^ 32 → readClient b' = .ok call →
      responseFormat.Good call ∧ b' = responseFormat.payload call := fun hshort => (readClient_ok (by omega)).1
  refine ⟨⟨?_, ?_⟩, ?_, ?_⟩
  · exact acceptsExactly_of_ok fun call => (readServer_ok hlen).trans serverGrammar_iff.symm
  · intro call hread hshort
    obtain ⟨hgood, rfl⟩ := hserver hshort hread
    refine ⟨?_, fun b' hshort' hread' => (hserver hshort' hread').2⟩
    cases call with
    | get cmd => exact getFormat.serialize_payload hgood
    | set cmd => exact setFormat.serialize_payload hgood
  · exact acceptsExactly_of_ok fun call => (readClient_ok hlen).trans clientGrammar_iff.symm
  · intro call hread hshort
    obtain ⟨hgood, rfl⟩ := hclient hshort hread
    exact ⟨responseFormat.serialize_payload hgood, fun b' hshort' hread' => (hclient hshort' hread').2⟩

theorem read_canonical_get :
    (AcceptsExactly readServer ServerGrammar [0, 1, 0, 0, 0, 107, 9, 0] ∧
        Canonical readServer ServerCall.serialize [0, 1, 0, 0, 0, 107, 9, 0]) ∧
      AcceptsExactly readClient ClientGrammar [0, 1, 0, 0, 0, 107, 9, 0] ∧
        Canonical readClient GetCommandResponse.serialize [0, 1, 0, 0, 0, 107, 9, 0] :=
  read_canonical (by decide)

example : readServer [0, 1, 0, 0, 0, 107, 9, 0] = .ok (.get ⟨[107], 9⟩) := rfl

/-! ## The length prefix -/

/-- What `serialize` writes starts with its own length. -/
def Message.PrefixExact (m : Message) : Prop :=
  ∀ writer, m.serialize = .ok writer → leNat (writer.buffer.take 4) = writer.buffer.length

/-- Strings that are each short enough to be written make a message whose
length fits in the prefix: 11, 13 or 31 bytes and the strings. -/
def Message.SizeFits : Message → Prop
  | .get cmd => cmd.key.length < 2 ^ 32 → cmd.key.length + 11 < 2 ^ 32
  | .set cmd => cmd.key.length < 2 ^ 32 → cmd.value.length < 2 ^ 32 →
    cmd.key.length + cmd.value.length + 13 < 2 ^ 32
  | .getResponse cmd => cmd.key.length < 2 ^ 32 → cmd.value.length < 2 ^ 32 →
    cmd.key.length + cmd.value.length + 31 < 2 ^ 32

/-- The prefix is the length modulo `2 ^ 32`. -/
theorem Format.frame_prefix {T : Type} (F : Format T) (c : T) :
    leNat ((F.frame c).take 4) = (F.frame c).length % 2 ^ 32 := by
  have htake : (F.frame c).take 4 = leBytes 4 ((F.payload c).length + 4) := by
    rw [Format.frame]
    exact List.take_left' (leBytes_length 4 _)
  have hlen : (F.frame c).length = (F.payload c).length + 4 := by
    simp only [Format.frame_length, Format.payload, List.length_cons]
  rw [htake, leNat_leBytes, hlen]
  rfl

theorem Format.prefix_iff {T : Type} (F : Format T) (c : T) :
    (∀ writer, F.serialize c = .ok writer → leNat (writer.buffer.take 4) = writer.buffer.length) ↔
      (F.Fits c → (F.frame c).length < 2 ^ 32) := by
  constructor
  · intro h hfits
    have hok := F.serialize_ok c hfits
    have hframe := (F.serialize_eq hok).2
    have hprefix := h _ hok
    rw [hframe, F.frame_prefix] at hprefix
    omega
  · intro h writer hw
    obtain ⟨hfits, hframe⟩ := F.serialize_eq hw
    have hlt := h hfits
    rw [hframe, F.frame_prefix]
    omega

/-- **The prefix is exact exactly for the messages that are not too long for it.** -/
theorem prefixExact_iff (m : Message) : m.PrefixExact ↔ m.SizeFits := by
  cases m with
  | get cmd =>
    refine (getFormat.prefix_iff cmd).trans ?_
    rw [getFrame_length]
    constructor
    · intro h hkey
      have hlt := h hkey
      omega
    · intro h hkey
      have hlt := h hkey
      omega
  | set cmd =>
    refine (setFormat.prefix_iff cmd).trans ?_
    rw [setFrame_length]
    constructor
    · intro h hkey hvalue
      have hlt := h ⟨hkey, hvalue⟩
      omega
    · rintro h ⟨hkey, hvalue⟩
      have hlt := h hkey hvalue
      omega
  | getResponse cmd =>
    refine (responseFormat.prefix_iff cmd).trans ?_
    rw [responseFrame_length]
    constructor
    · intro h hkey hvalue
      have hlt := h ⟨hkey, hvalue⟩
      omega
    · rintro h ⟨hkey, hvalue⟩
      have hlt := h hkey hvalue
      omega

/-- A GET of a key of one of the last lengths below 4 GiB is written with a prefix of a few bytes. -/
theorem get_not_prefixExact {key : Bytes} (requestId : UInt16) (hkey : key.length < 2 ^ 32)
    (hlong : 2 ^ 32 ≤ key.length + 11) : ¬ (Message.get ⟨key, requestId⟩).PrefixExact := by
  intro h
  have hlt := (getFormat.prefix_iff ⟨key, requestId⟩).1 h hkey
  simp only [getFrame_length] at hlt
  omega

theorem longKey_not_prefixExact :
    ¬ (Message.get ⟨List.replicate (2 ^ 32 - 11) 0, 1⟩).PrefixExact :=
  get_not_prefixExact 1 (by rw [List.length_replicate]; decide) (by rw [List.length_replicate]; decide)

end ConfigServer
