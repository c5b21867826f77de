/-
`memory_writer` and `memory_reader`, the byte buffers every message is
written to and read from, and what a reader does as a decoder of the bytes it
has not read yet.

Exceptions are `Except` with the text the code throws. The reader's offset is
a `size_t`, so the bounds checks add modulo `2 ^ 64`; the check is right
because a `std::vector` of bytes is shorter than `2 ^ 63` (`MemoryReader.Ok`).
-/
import ConfigServer.Lib.Codec
import ConfigServer.Lib.SizeT

namespace ConfigServer

open LittleEndian Codec

/-! ## memory_writer -/

structure MemoryWriter where
  buffer : Bytes := []

namespace MemoryWriter

/-- `write(const T&)` for an integer of `width` bytes. -/
def writeInt (width n : Nat) (w : MemoryWriter) : MemoryWriter := ⟨w.buffer ++ leBytes width n⟩

def writeU8 (n : UInt8) : MemoryWriter → MemoryWriter := writeInt 1 n.toNat
def writeU16 (n : UInt16) : MemoryWriter → MemoryWriter := writeInt 2 n.toNat
def writeU32 (n : UInt32) : MemoryWriter → MemoryWriter := writeInt 4 n.toNat
def writeU64 (n : UInt64) : MemoryWriter → MemoryWriter := writeInt 8 n.toNat

/-- `write(const std::string&)`. -/
def writeString (str : Bytes) (w : MemoryWriter) : Except String MemoryWriter :=
  if str.length > 2 ^ 32 - 1 then
    .error "string too long to serialize"
  else
    let len := UInt32.ofNat str.length
    let w := w.writeU32 len
    .ok ⟨w.buffer ++ str⟩

/-- The bytes `write(const std::string&)` appends. -/
def stringBytes (str : Bytes) : Bytes := leBytes 4 str.length ++ str

theorem writeString_ok {str : Bytes} (h : str.length < 2 ^ 32) (w : MemoryWriter) :
    w.writeString str = .ok ⟨w.buffer ++ stringBytes str⟩ := by
  have hlen : (UInt32.ofNat str.length).toNat = str.length := by
    rw [UInt32.toNat_ofNat', Nat.mod_eq_of_lt h]
  have hle : ¬ str.length > 2 ^ 32 - 1 := by omega
  simp only [writeString, hle, if_false, writeU32, writeInt, hlen, stringBytes, List.append_assoc]

theorem writeString_error {str : Bytes} (h : ¬ str.length < 2 ^ 32) (w : MemoryWriter) :
    w.writeString str = .error "string too long to serialize" := by
  have hgt : str.length > 2 ^ 32 - 1 := by omega
  simp only [writeString, hgt, if_true]

end MemoryWriter

/-! ## memory_reader -/

structure MemoryReader where
  buffer : Bytes
  offset : Nat := 0

/-- A reading function of the code: it moves the reader, or throws. -/
abbrev ReadM := StateT MemoryReader (Except String)

namespace MemoryReader

def isEnd (r : MemoryReader) : Bool := r.offset ≥ r.buffer.length

def size (r : MemoryReader) : Nat := SizeT.sub r.buffer.length r.offset

/-- `len` bytes of the buffer from the offset on. -/
def slice (r : MemoryReader) (len : Nat) : Bytes := (r.buffer.drop r.offset).take len

/-- What both `read` functions do with a length: throw `what` when it runs
past the buffer, else take that many bytes and move the offset. -/
def readSlice (what : String) (len : Nat) : ReadM Bytes := do
  let r ← get
  if SizeT.add r.offset len > r.buffer.length then
    throw what
  set { r with offset := SizeT.add r.offset len }
  pure (r.slice len)

/-- `read(T&)` for an integer of `width` bytes. -/
def readInt (width : Nat) : ReadM Nat := leNat <$> readSlice "read out of bounds" width

def readU8 : ReadM UInt8 := UInt8.ofNat <$> readInt 1
def readU16 : ReadM UInt16 := UInt16.ofNat <$> readInt 2
def readU32 : ReadM UInt32 := UInt32.ofNat <$> readInt 4
def readU64 : ReadM UInt64 := UInt64.ofNat <$> readInt 8

/-- `read(std::string&)`. -/
def readString : ReadM Bytes := do
  let len ← readU32
  readSlice "string read out of bounds" len.toNat

/-- The offset is inside the buffer, and the buffer is one a `std::vector` can hold. -/
structure Ok (r : MemoryReader) : Prop where
  offset_le : r.offset ≤ r.buffer.length
  length_lt : r.buffer.length < 2 ^ 63

/-- The bytes not read yet. -/
def rest (r : MemoryReader) : Bytes := r.buffer.drop r.offset

end MemoryReader

/-- `p` reads as the decoder `d` does: the same value and the same bytes left,
in the same buffer, and where `d` fails `p` throws. -/
def Implements {α : Type} (p : ReadM α) (d : Decoder α) : Prop :=
  ∀ r : MemoryReader, r.Ok →
    match d r.rest with
    | some (a, t) => ∃ r', p r = .ok (a, r') ∧ r'.Ok ∧ r'.buffer = r.buffer ∧ r'.rest = t
    | none => ∃ e, p r = .error e

namespace Implements

variable {α β : Type}

theorem ok {p : ReadM α} {d : Decoder α} (h : Implements p d) {r : MemoryReader} (hr : r.Ok) {a : α}
    {t : Bytes} (hd : d r.rest = some (a, t)) :
    ∃ r', p r = .ok (a, r') ∧ r'.Ok ∧ r'.buffer = r.buffer ∧ r'.rest = t := by
  have := h r hr
  rwa [hd] at this

theorem error {p : ReadM α} {d : Decoder α} (h : Implements p d) {r : MemoryReader} (hr : r.Ok)
    (hd : d r.rest = none) : ∃ e, p r = .error e := by
  have := h r hr
  rwa [hd] at this

theorem bind {p : ReadM α} {d : Decoder α} {f : α → ReadM β} {g : α → Decoder β} (h : Implements p d)
    (hf : ∀ a, Implements (f a) (g a)) : Implements (p >>= f) (d.bind g) := by
  intro r hr
  cases hd : d r.rest with
  | none =>
    obtain ⟨e, he⟩ := h.error hr hd
    simp only [Decoder.bind, hd, Option.bind_none]
    exact ⟨e, by simp only [StateT.bind, Bind.bind, he, Except.bind]⟩
  | some q =>
    obtain ⟨a, t⟩ := q
    obtain ⟨r', hp, hr', hb, ht⟩ := h.ok hr hd
    have hrun : (p >>= f) r = f a r' := by simp only [StateT.bind, Bind.bind, hp, Except.bind]
    have hcont := hf a r' hr'
    simp only [Decoder.bind, hd, Option.bind_some, hrun]
    rw [ht] at hcont
    rw [hb] at hcont
    exact hcont

theorem map {p : ReadM α} {d : Decoder α} (h : Implements p d) (f : α → β) :
    Implements (f <$> p) (d.map f) := by
  intro r hr
  cases hd : d r.rest with
  | none =>
    obtain ⟨e, he⟩ := h.error hr hd
    simp only [Decoder.map, hd, Option.map_none]
    exact ⟨e, by simp only [Functor.map, StateT.map, Bind.bind, he, Except.bind]⟩
  | some q =>
    obtain ⟨a, t⟩ := q
    obtain ⟨r', hp, hr', hb, ht⟩ := h.ok hr hd
    simp only [Decoder.map, hd, Option.map_some]
    exact ⟨r', by simp only [Functor.map, StateT.map, Bind.bind, hp, Except.bind, Pure.pure, Except.pure],
      hr', hb, ht⟩

end Implements

namespace MemoryReader

theorem readSlice_ok {what : String} {len : Nat} {r : MemoryReader} (hr : r.Ok) (hlen : len < 2 ^ 63)
    (h : len ≤ r.rest.length) :
    readSlice what len r = .ok (r.rest.take len, { r with offset := r.offset + len }) := by
  have hle := hr.offset_le
  have hlt := hr.length_lt
  have hadd : SizeT.add r.offset len = r.offset + len := SizeT.add_eq (by unfold SizeT.modulus; omega)
  have hin : ¬ SizeT.add r.offset len > r.buffer.length := by
    simp only [rest, List.length_drop] at h
    omega
  simp only [readSlice, bind, StateT.bind, get, getThe, MonadStateOf.get, StateT.get, Except.bind, pure,
    Except.pure, hin, if_false]
  simp only [hadd]
  rfl

theorem readSlice_error {what : String} {len : Nat} {r : MemoryReader} (hr : r.Ok) (hlen : len < 2 ^ 63)
    (h : ¬ len ≤ r.rest.length) : readSlice what len r = .error what := by
  have hle := hr.offset_le
  have hlt := hr.length_lt
  have hadd : SizeT.add r.offset len = r.offset + len := SizeT.add_eq (by unfold SizeT.modulus; omega)
  have hout : SizeT.add r.offset len > r.buffer.length := by
    simp only [rest, List.length_drop] at h
    omega
  simp only [readSlice, bind, StateT.bind, get, getThe, MonadStateOf.get, StateT.get, Except.bind, pure,
    Except.pure, hout, if_true]
  rfl

theorem implements_slice (what : String) {len : Nat} (hlen : len < 2 ^ 63) :
    Implements (readSlice what len) (take len) := by
  intro r hr
  unfold take
  by_cases h : len ≤ r.rest.length
  · simp only [h, if_true]
    refine ⟨_, readSlice_ok hr hlen h, ⟨?_, hr.length_lt⟩, rfl, ?_⟩
    · have hle := hr.offset_le
      simp only [rest, List.length_drop] at h
      show r.offset + len ≤ r.buffer.length
      omega
    · simp only [rest, List.drop_drop]
  · simp only [h, if_false]
    exact ⟨what, readSlice_error hr hlen h⟩

theorem implements_int {width : Nat} (h : width < 2 ^ 63) : Implements (readInt width) (int width) :=
  (implements_slice _ h).map leNat

theorem implements_u8 : Implements readU8 ((int 1).map UInt8.ofNat) :=
  (implements_int (by decide)).map _

theorem implements_u16 : Implements readU16 ((int 2).map UInt16.ofNat) :=
  (implements_int (by decide)).map _

theorem implements_u32 : Implements readU32 ((int 4).map UInt32.ofNat) :=
  (implements_int (by decide)).map _

theorem implements_u64 : Implements readU64 ((int 8).map UInt64.ofNat) :=
  (implements_int (by decide)).map _

theorem implements_string : Implements readString (sized 4) := by
  have hlen : ((int 4).map UInt32.ofNat).bind (fun n => take n.toNat) = sized 4 := by
    funext bs
    cases h : int 4 bs with
    | none => simp [Decoder.bind, Decoder.map, sized, h]
    | some q =>
      have hn : q.1 < 2 ^ 32 := ((lawful_int 4).encodes (a := q.1) (t := q.2) h).1
      simp only [Decoder.bind, Decoder.map, sized, h, Option.map_some, Option.bind_some,
        UInt32.toNat_ofNat', Nat.mod_eq_of_lt hn]
  rw [← hlen]
  refine implements_u32.bind fun n => implements_slice _ ?_
  have := n.toNat_lt
  omega

end MemoryReader

/-! ## The formats of the fields -/

theorem lawful_u8 : Lawful (fun _ => True) (fun n : UInt8 => leBytes 1 n.toNat) ((int 1).map UInt8.ofNat) :=
  lawful_word 1 (fun _ => UInt8.ofNat_toNat) (fun _ h => UInt8.toNat_ofNat_of_lt' h) UInt8.toNat_lt

theorem lawful_u16 : Lawful (fun _ => True) (fun n : UInt16 => leBytes 2 n.toNat)
    ((int 2).map UInt16.ofNat) :=
  lawful_word 2 (fun _ => UInt16.ofNat_toNat) (fun _ h => UInt16.toNat_ofNat_of_lt' h) UInt16.toNat_lt

theorem lawful_u32 : Lawful (fun _ => True) (fun n : UInt32 => leBytes 4 n.toNat)
    ((int 4).map UInt32.ofNat) :=
  lawful_word 4 (fun _ => UInt32.ofNat_toNat) (fun _ h => UInt32.toNat_ofNat_of_lt' h) UInt32.toNat_lt

theorem lawful_u64 : Lawful (fun _ => True) (fun n : UInt64 => leBytes 8 n.toNat)
    ((int 8).map UInt64.ofNat) :=
  lawful_word 8 (fun _ => UInt64.ofNat_toNat) (fun _ h => UInt64.toNat_ofNat_of_lt' h) UInt64.toNat_lt

theorem lawful_string : Lawful (fun s : Bytes => s.length < 2 ^ 32) MemoryWriter.stringBytes (sized 4) :=
  lawful_sized 4

end ConfigServer
