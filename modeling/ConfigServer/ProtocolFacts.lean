/-
What the three command classes have in common as wire formats. Each has a
body (its fields in order, after the length prefix and the type byte), its
`serialize` writes the true length in front of it, and its `read` accepts
exactly the bodies of the commands `serialize` can write and `read` admits.
From these, `readServer` and `readClient` accept exactly the payloads of the
commands they dispatch.
-/
import ConfigServer.Protocol

namespace ConfigServer

open LittleEndian Codec MemoryReader

/-! ## Serializing the common prefix -/

theorem baseCommand_serialize (type : CommandType) (n : Nat) :
    (BaseCommand.serialize type n).buffer = leBytes 4 n ++ [type.toU8] := by
  have hsize : leBytes 4 (UInt32.ofNat n).toNat = leBytes 4 n := by
    rw [UInt32.toNat_ofNat']
    exact leBytes_mod 4 n
  have htype : leBytes 1 type.toU8.toNat = [type.toU8] := by simp [leBytes]
  simp only [BaseCommand.serialize, MemoryWriter.writeU32, MemoryWriter.writeU8, MemoryWriter.writeInt,
    hsize, htype, List.nil_append]

theorem command_serialize {key : Bytes} (h : key.length < 2 ^ 32) (type : CommandType) (n : Nat) :
    Command.serialize type n key =
      .ok ⟨leBytes 4 n ++ type.toU8 :: MemoryWriter.stringBytes key⟩ := by
  rw [Command.serialize, MemoryWriter.writeString_ok h, baseCommand_serialize]
  simp

theorem command_serialize_error {key : Bytes} (h : ¬ key.length < 2 ^ 32) (type : CommandType) (n : Nat) :
    Command.serialize type n key = .error "string too long to serialize" :=
  MemoryWriter.writeString_error h _

/-! ## Formats -/

/-- A command class as a wire format. -/
structure Format (T : Type) where
  type : CommandType
  serialize : T → Except String MemoryWriter
  read : ReadM T
  /-- The strings are short enough for `serialize`. -/
  Fits : T → Prop
  /-- What `read` checks of the fields. -/
  Valid : T → Prop
  body : T → Bytes
  decoder : Decoder T
  lawful : Lawful (fun c => Fits c ∧ Valid c) body decoder
  implements : Implements read decoder
  serialize_ok : ∀ c, Fits c →
    serialize c = .ok ⟨leBytes 4 ((body c).length + 5) ++ type.toU8 :: body c⟩
  serialize_error : ∀ c, ¬ Fits c → serialize c = .error "string too long to serialize"

/-- A `read` that ends with the check of the request id. -/
theorem Implements.check {α β : Type} {p : ReadM α} {d : Decoder α} (h : Implements p d) (f : α → β)
    (bad : α → Prop) [DecidablePred bad] (what : String) :
    Implements (do let a ← p; if bad a then throw what else pure (f a))
      ((d.filter fun a => ¬ bad a).map f) := by
  intro r hr
  cases hd : d r.rest with
  | none =>
    obtain ⟨e, he⟩ := h.error hr hd
    simp only [Decoder.map, Decoder.filter, hd, Option.filter_none, Option.map_none]
    exact ⟨e, by simp only [StateT.bind, Bind.bind, he, Except.bind]⟩
  | some q =>
    obtain ⟨a, t⟩ := q
    obtain ⟨r', hp, hr', hb, ht⟩ := h.ok hr hd
    by_cases hbad : bad a
    · simp only [Decoder.map, Decoder.filter, hd, Option.filter, hbad]
      refine ⟨what, ?_⟩
      simp only [StateT.bind, Bind.bind, hp, Except.bind, hbad, if_true]
      rfl
    · simp only [Decoder.map, Decoder.filter, hd, Option.filter, hbad]
      refine ⟨r', ?_, hr', hb, ht⟩
      simp only [StateT.bind, Bind.bind, hp, Except.bind, hbad, if_false]
      rfl

theorem Implements.seq {α β : Type} {p : ReadM α} {d : Decoder α} {q : ReadM β} {e : Decoder β}
    (h : Implements p d) (h' : Implements q e) :
    Implements (do let a ← p; let b ← q; pure (a, b)) (d.seq e) := by
  have hq : ∀ a : α, Implements (do let b ← q; pure (a, b)) (e.map fun b => (a, b)) := by
    intro a
    rw [← map_eq_pure_bind]
    exact h'.map _
  exact h.bind hq

theorem setCommand_read :
    SetCommand.read = (fun p => ⟨p.1, p.2⟩) <$>
      (do let key ← readString; let value ← readString; pure (key, value)) := by
  simp [SetCommand.read, Command.read]

theorem getCommand_read :
    GetCommand.read = (do
      let p ← (do let key ← readString; let requestId ← readU16; pure (key, requestId))
      if p.2 = 0 then throw "request_id cannot be zero" else pure ⟨p.1, p.2⟩) := by
  simp [GetCommand.read, Command.read]

theorem getCommandResponse_read :
    GetCommandResponse.read = (do
      let p ← (do
        let key ← readString
        let p ← (do
          let requestId ← readU16
          let p ← (do
            let reads ← readU64
            let p ← (do let writes ← readU64; let value ← readString; pure (writes, value))
            pure (reads, p))
          pure (requestId, p))
        pure (key, p))
      if p.2.1 = 0 then throw "request_id cannot be zero"
      else pure ⟨p.1, p.2.1, p.2.2.1, p.2.2.2.1, p.2.2.2.2⟩) := by
  simp [GetCommandResponse.read, Command.read]

/-! ## The three formats -/

/-- A serialized size, cut to 32 bits, is what the length prefix holds. -/
theorem leBytes_size {n m : Nat} (h : n % 2 ^ 32 = m % 2 ^ 32) : leBytes 4 n = leBytes 4 m :=
  leBytes_congr h

open MemoryWriter (stringBytes writeString_ok writeString_error)

@[simp] theorem stringBytes_length (str : Bytes) : (stringBytes str).length = 4 + str.length := by
  simp [stringBytes]

def setFormat : Format SetCommand where
  type := .set
  serialize := SetCommand.serialize
  read := SetCommand.read
  Fits c := c.key.length < 2 ^ 32 ∧ c.value.length < 2 ^ 32
  Valid _ := True
  body c := stringBytes c.key ++ stringBytes c.value
  decoder := ((sized 4).seq (sized 4)).map fun p => ⟨p.1, p.2⟩
  lawful := by
    have h := (lawful_string.seq lawful_string).map (f := fun p => (⟨p.1, p.2⟩ : SetCommand))
      (g := fun c => (c.key, c.value)) (fun _ => rfl) (fun _ _ => rfl)
    simpa using h
  implements := by
    rw [setCommand_read]
    exact (implements_string.seq implements_string).map _
  serialize_ok c h := by
    have hsize : leBytes 4 c.getSerializedSize =
        leBytes 4 ((stringBytes c.key ++ stringBytes c.value).length + 5) := by
      apply leBytes_size
      simp only [SetCommand.getSerializedSize, Command.getSerializedSize, BaseCommand.getSerializedSize,
        SizeT.add, SizeT.modulus, stringBytes_length, List.length_append]
      omega
    simp only [SetCommand.serialize, command_serialize h.1, hsize, Bind.bind, Except.bind,
      writeString_ok h.2, CommandType.toU8]
    simp
  serialize_error c h := by
    by_cases hk : c.key.length < 2 ^ 32
    · have hv : ¬ c.value.length < 2 ^ 32 := fun hv => h ⟨hk, hv⟩
      simp only [SetCommand.serialize, command_serialize hk, Bind.bind, Except.bind, writeString_error hv]
    · simp only [SetCommand.serialize, command_serialize_error hk, Bind.bind, Except.bind]

def getFormat : Format GetCommand where
  type := .get
  serialize := GetCommand.serialize
  read := GetCommand.read
  Fits c := c.key.length < 2 ^ 32
  Valid c := c.requestId ≠ 0
  body c := stringBytes c.key ++ leBytes 2 c.requestId.toNat
  decoder := (((sized 4).seq ((int 2).map UInt16.ofNat)).filter fun p => ¬ p.2 = 0).map fun p => ⟨p.1, p.2⟩
  lawful := by
    have h := ((lawful_string.seq lawful_u16).filter fun p => ¬ p.2 = 0).map
      (f := fun p => (⟨p.1, p.2⟩ : GetCommand)) (g := fun c => (c.key, c.requestId))
      (fun _ => rfl) (fun _ _ => rfl)
    simpa using h
  implements := by
    rw [getCommand_read]
    exact (implements_string.seq implements_u16).check _ (fun p => p.2 = 0) _
  serialize_ok c h := by
    have hsize : leBytes 4 c.getSerializedSize =
        leBytes 4 ((stringBytes c.key ++ leBytes 2 c.requestId.toNat).length + 5) := by
      apply leBytes_size
      simp only [GetCommand.getSerializedSize, Command.getSerializedSize, BaseCommand.getSerializedSize,
        SizeT.add, SizeT.modulus, stringBytes_length, List.length_append, leBytes_length]
      omega
    simp only [GetCommand.serialize, command_serialize h, hsize, Bind.bind, Except.bind, Pure.pure,
      Except.pure, MemoryWriter.writeU16, MemoryWriter.writeInt]
    simp
  serialize_error c h := by
    simp only [GetCommand.serialize, command_serialize_error h, Bind.bind, Except.bind]

def responseFormat : Format GetCommandResponse where
  type := .getResponse
  serialize := GetCommandResponse.serialize
  read := GetCommandResponse.read
  Fits c := c.key.length < 2 ^ 32 ∧ c.value.length < 2 ^ 32
  Valid c := c.requestId ≠ 0
  body c := stringBytes c.key ++ (leBytes 2 c.requestId.toNat ++ (leBytes 8 c.reads.toNat ++
    (leBytes 8 c.writes.toNat ++ stringBytes c.value)))
  decoder := (((sized 4).seq (((int 2).map UInt16.ofNat).seq (((int 8).map UInt64.ofNat).seq
    (((int 8).map UInt64.ofNat).seq (sized 4))))).filter fun p => ¬ p.2.1 = 0).map
      fun p => ⟨p.1, p.2.1, p.2.2.1, p.2.2.2.1, p.2.2.2.2⟩
  lawful := by
    have h := ((lawful_string.seq (lawful_u16.seq (lawful_u64.seq (lawful_u64.seq lawful_string)))).filter
        fun p => ¬ p.2.1 = 0).map
      (f := fun p => (⟨p.1, p.2.1, p.2.2.1, p.2.2.2.1, p.2.2.2.2⟩ : GetCommandResponse))
      (g := fun c => (c.key, c.requestId, c.reads, c.writes, c.value)) (fun _ => rfl) (fun _ _ => rfl)
    simpa using h
  implements := by
    rw [getCommandResponse_read]
    exact (implements_string.seq (implements_u16.seq (implements_u64.seq
      (implements_u64.seq implements_string)))).check _ (fun p => p.2.1 = 0) _
  serialize_ok c h := by
    have hsize : leBytes 4 c.getSerializedSize =
        leBytes 4 ((stringBytes c.key ++ (leBytes 2 c.requestId.toNat ++ (leBytes 8 c.reads.toNat ++
          (leBytes 8 c.writes.toNat ++ stringBytes c.value)))).length + 5) := by
      apply leBytes_size
      simp only [GetCommandResponse.getSerializedSize, Command.getSerializedSize,
        BaseCommand.getSerializedSize, SizeT.add, SizeT.modulus, stringBytes_length, List.length_append,
        leBytes_length]
      omega
    simp only [GetCommandResponse.serialize, command_serialize h.1, hsize, Bind.bind, Except.bind,
      MemoryWriter.writeU16, MemoryWriter.writeU64, MemoryWriter.writeInt, writeString_ok h.2]
    simp
  serialize_error c h := by
    by_cases hk : c.key.length < 2 ^ 32
    · have hv : ¬ c.value.length < 2 ^ 32 := fun hv => h ⟨hk, hv⟩
      simp only [GetCommandResponse.serialize, command_serialize hk, Bind.bind, Except.bind,
        writeString_error hv]
    · simp only [GetCommandResponse.serialize, command_serialize_error hk, Bind.bind, Except.bind]

/-! ## process and read -/

theorem isEnd_iff {r : MemoryReader} : r.isEnd = true ↔ r.rest = [] := by
  simp [MemoryReader.isEnd, MemoryReader.rest]

/-- `process` succeeds exactly when `read` takes all that is left. -/
theorem process_ok {T : Type} {p : ReadM T} {d : Decoder T} (h : Implements p d) {r : MemoryReader}
    (hr : r.Ok) {a : T} : (∃ r', process p r = .ok (a, r')) ↔ d r.rest = some (a, []) := by
  cases hd : d r.rest with
  | none =>
    obtain ⟨e, he⟩ := h.error hr hd
    simp [process, bind, StateT.bind, he, Except.bind]
  | some q =>
    obtain ⟨b, t⟩ := q
    obtain ⟨r', hp, -, -, ht⟩ := h.ok hr hd
    have hrun : process p r = if !r'.isEnd then
        .error ("truncated buffer: reader.size() = " ++ toString r'.size ++ ", !reader.is_end()")
        else .ok (b, r') := by
      simp only [process, bind, StateT.bind, hp, Except.bind, get, getThe, MonadStateOf.get, StateT.get,
        pure, Except.pure]
      split <;> rfl
    rw [hrun]
    by_cases hend : r'.isEnd = true
    · have hnil : t = [] := by rw [← ht]; exact isEnd_iff.1 hend
      simp [hend, hnil]
    · have hcons : t ≠ [] := fun h => hend (isEnd_iff.2 (by rw [ht, h]))
      simp [hend, hcons]

theorem readU8_nil : ∃ e, readU8 ⟨[], 0⟩ = .error e :=
  implements_u8.error ⟨Nat.le_refl 0, by decide⟩ (by rfl)

theorem readU8_cons {b : UInt8} {bs : Bytes} (h : (b :: bs).length < 2 ^ 63) :
    ∃ r, readU8 ⟨b :: bs, 0⟩ = .ok (b, r) ∧ r.Ok ∧ r.rest = bs := by
  have hdec := lawful_u8.decodes (a := b) bs trivial
  have hone : leBytes 1 b.toNat = [b] := by simp [leBytes]
  rw [hone] at hdec
  obtain ⟨r, hrun, hr, -, hrest⟩ :=
    implements_u8.ok (r := ⟨b :: bs, 0⟩) ⟨Nat.zero_le _, h⟩ hdec
  exact ⟨r, hrun, hr, hrest⟩

namespace Format

variable {T : Type} (F : Format T)

/-- What follows the length prefix on the wire. -/
def payload (c : T) : Bytes := F.type.toU8 :: F.body c

/-- The whole message on the wire. -/
def frame (c : T) : Bytes := leBytes 4 ((F.payload c).length + 4) ++ F.payload c

/-- The commands that are serialized without a throw and read back. -/
def Good (c : T) : Prop := F.Fits c ∧ F.Valid c

theorem process_iff {r : MemoryReader} (hr : r.Ok) {c : T} :
    (∃ r', process F.read r = .ok (c, r')) ↔ F.Good c ∧ r.rest = F.body c := by
  rw [process_ok F.implements hr]
  constructor
  · intro h
    simpa [Good] using F.lawful.encodes h
  · rintro ⟨hc, hrest⟩
    simpa [hrest] using F.lawful.decodes (a := c) [] hc

theorem serialize_fits {c : T} (h : F.Fits c) : F.serialize c = .ok ⟨F.frame c⟩ := by
  rw [F.serialize_ok c h]
  simp [frame, payload]

/-- **Serialized form.** What `serialize` writes is the length of the whole
message, the type and the fields. -/
theorem serialize_eq {c : T} {w : MemoryWriter} (h : F.serialize c = .ok w) :
    F.Fits c ∧ w.buffer = F.frame c := by
  by_cases hfits : F.Fits c
  · rw [F.serialize_fits hfits, Except.ok.injEq] at h
    exact ⟨hfits, by rw [← h]⟩
  · rw [F.serialize_error c hfits] at h
    cases h

@[simp] theorem frame_length (c : T) : (F.frame c).length = (F.body c).length + 5 := by
  simp [frame, payload]
  omega

end Format

/-- A payload whose type byte leads to `F`'s class is accepted exactly when it is that of a good command. -/
theorem Format.accepts {T C : Type} (F : Format T) (mk : T → C) {r : MemoryReader} (hr : r.Ok) {c : C} :
    (do let (cmd, _) ← process F.read r; pure (mk cmd) : Except String C) = .ok c ↔
      ∃ cmd, c = mk cmd ∧ F.Good cmd ∧ r.rest = F.body cmd := by
  constructor
  · intro h
    cases hp : process F.read r with
    | error e => rw [hp] at h; cases h
    | ok q =>
      rw [hp] at h
      cases h
      exact ⟨q.1, rfl, (F.process_iff hr).1 ⟨q.2, hp⟩⟩
  · rintro ⟨cmd, rfl, hcmd⟩
    obtain ⟨r', hp⟩ := (F.process_iff hr).2 hcmd
    rw [hp]
    rfl

/-! ## What a server and a client accept -/

namespace ServerCall

def Good : ServerCall → Prop
  | .get cmd => getFormat.Good cmd
  | .set cmd => setFormat.Good cmd

def payload : ServerCall → Bytes
  | .get cmd => getFormat.payload cmd
  | .set cmd => setFormat.payload cmd

def frame : ServerCall → Bytes
  | .get cmd => getFormat.frame cmd
  | .set cmd => setFormat.frame cmd

theorem frame_eq (c : ServerCall) : c.frame = leBytes 4 (c.payload.length + 4) ++ c.payload := by
  cases c <;> rfl

theorem serialize_eq {c : ServerCall} {w : MemoryWriter} (h : c.serialize = .ok w) : w.buffer = c.frame := by
  cases c with
  | get cmd => exact (getFormat.serialize_eq h).2
  | set cmd => exact (setFormat.serialize_eq h).2

end ServerCall

/-- **The server's grammar.** `readServer` dispatches a command exactly on its own payload. -/
theorem readServer_ok {buf : Bytes} (hlen : buf.length < 2 ^ 63) {call : ServerCall} :
    readServer buf = .ok call ↔ call.Good ∧ buf = call.payload := by
  cases buf with
  | nil =>
    obtain ⟨e, he⟩ := readU8_nil
    have hne : call.payload ≠ [] := by cases call <;> simp [ServerCall.payload, Format.payload]
    simp only [readServer, Bind.bind, he, Except.bind]
    exact ⟨fun h => (nomatch h), fun h => absurd h.2.symm hne⟩
  | cons b bs =>
    obtain ⟨r, hrun, hr, rfl⟩ := readU8_cons hlen
    have hread : readServer (b :: r.rest) =
        if b = CommandType.get.toU8 then (process GetCommand.read r).bind fun p => pure (.get p.1)
        else if b = CommandType.set.toU8 then (process SetCommand.read r).bind fun p => pure (.set p.1)
        else throw "unknown command type" := by
      simp only [readServer, Bind.bind, hrun, Except.bind]
    rw [hread]
    split
    · next hb =>
      refine (getFormat.accepts ServerCall.get hr).trans ?_
      rw [hb]
      cases call <;> simp [ServerCall.Good, ServerCall.payload, Format.payload, getFormat, setFormat,
        CommandType.toU8]
    split
    · next hb =>
      refine (setFormat.accepts ServerCall.set hr).trans ?_
      rw [hb]
      cases call <;> simp [ServerCall.Good, ServerCall.payload, Format.payload, getFormat, setFormat,
        CommandType.toU8]
    · next hget hset =>
      constructor
      · intro h
        cases h
      · rintro ⟨-, h⟩
        cases call <;> simp_all [ServerCall.payload, Format.payload, getFormat, setFormat]

/-- **The client's grammar.** `readClient` dispatches a response exactly on its own payload. -/
theorem readClient_ok {buf : Bytes} (hlen : buf.length < 2 ^ 63) {call : ClientCall} :
    readClient buf = .ok call ↔ responseFormat.Good call ∧ buf = responseFormat.payload call := by
  cases buf with
  | nil =>
    obtain ⟨e, he⟩ := readU8_nil
    simp only [readClient, Bind.bind, he, Except.bind]
    exact ⟨fun h => (nomatch h), fun h => (nomatch h.2)⟩
  | cons b bs =>
    obtain ⟨r, hrun, hr, rfl⟩ := readU8_cons hlen
    have hread : readClient (b :: r.rest) =
        if b ≠ CommandType.getResponse.toU8 then throw "expected GET_RESPONSE command"
        else (process GetCommandResponse.read r).bind fun p => pure p.1 := by
      simp only [readClient, Bind.bind, hrun, Except.bind]
    rw [hread]
    split
    · next hb =>
      constructor
      · intro h
        cases h
      · rintro ⟨-, h⟩
        exact absurd (List.cons.inj h).1 hb
    · next hb =>
      refine (responseFormat.accepts id hr).trans ?_
      rw [not_not.1 hb]
      simp [Format.payload, responseFormat]

end ConfigServer
