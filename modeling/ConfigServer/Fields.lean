/-
Any sequence of fields through `memory_writer` and back through
`memory_reader`. What was written is read back, field by field, and the end is
reached behind the last field only. A buffer cut off anywhere before its end
makes the reads throw. Every copy the reader makes, also that of a length
before its string is found not to be there, lies within the buffer.
-/
import ConfigServer.ProtocolFacts

namespace ConfigServer

open LittleEndian Codec MemoryReader

/-! ## Writing and reading fields -/

/-- The type a field is written with and read as. -/
inductive FieldType
  | u8
  | u16
  | u32
  | u64
  | string
deriving DecidableEq

inductive Field
  | u8 (n : UInt8)
  | u16 (n : UInt16)
  | u32 (n : UInt32)
  | u64 (n : UInt64)
  | string (str : Bytes)
deriving DecidableEq

namespace Field

def type : Field → FieldType
  | .u8 _ => .u8
  | .u16 _ => .u16
  | .u32 _ => .u32
  | .u64 _ => .u64
  | .string _ => .string

/-- The overload of `memory_writer::write` for the field. -/
def write : Field → MemoryWriter → Except String MemoryWriter
  | .u8 n, w => .ok (w.writeU8 n)
  | .u16 n, w => .ok (w.writeU16 n)
  | .u32 n, w => .ok (w.writeU32 n)
  | .u64 n, w => .ok (w.writeU64 n)
  | .string str, w => w.writeString str

/-- A string is short enough for `write`. -/
def Fits : Field → Prop
  | .string str => str.length < 2 ^ 32
  | _ => True

instance (f : Field) : Decidable f.Fits := by
  unfold Fits
  split <;> infer_instance

/-- The bytes `write` appends. -/
def bytes : Field → Bytes
  | .u8 n => leBytes 1 n.toNat
  | .u16 n => leBytes 2 n.toNat
  | .u32 n => leBytes 4 n.toNat
  | .u64 n => leBytes 8 n.toNat
  | .string str => MemoryWriter.stringBytes str

end Field

/-- The overload of `memory_reader::read` for the type. -/
def FieldType.read : FieldType → ReadM Field
  | .u8 => Field.u8 <$> readU8
  | .u16 => Field.u16 <$> readU16
  | .u32 => Field.u32 <$> readU32
  | .u64 => Field.u64 <$> readU64
  | .string => Field.string <$> readString

def readFields : List FieldType → ReadM (List Field)
  | [] => pure []
  | t :: ts => do
    let f ← t.read
    let fs ← readFields ts
    pure (f :: fs)

/-! ## The copies -/

/-- A call of `readSlice`: the reader it finds, and how many bytes it is to copy. -/
structure Copy where
  reader : MemoryReader
  len : Nat

/-- What a `read` copies: an integer, or the length of a string and then its bytes. -/
def FieldType.copies (r : MemoryReader) : FieldType → List Copy
  | .u8 => [⟨r, 1⟩]
  | .u16 => [⟨r, 2⟩]
  | .u32 => [⟨r, 4⟩]
  | .u64 => [⟨r, 8⟩]
  | .string =>
    ⟨r, 4⟩ ::
      match readU32 r with
      | .ok (len, r) => [⟨r, len.toNat⟩]
      | .error _ => []

/-- What the reads copy, up to the one that throws. -/
def copies : List FieldType → MemoryReader → List Copy
  | [], _ => []
  | t :: ts, r =>
    t.copies r ++
      match t.read r with
      | .ok (_, r) => copies ts r
      | .error _ => []

/-- The check before the copy throws. -/
def Copy.Fails (c : Copy) : Prop := SizeT.add c.reader.offset c.len > c.reader.buffer.length

section
variable {α β : Type} {p : ReadM α} {r : MemoryReader}

theorem readSlice_throws_iff {what : String} {len : Nat} :
    (∃ e, readSlice what len r = .error e) ↔ Copy.Fails ⟨r, len⟩ := by
  unfold Copy.Fails
  by_cases h : SizeT.add r.offset len > r.buffer.length
  · have hrun : readSlice what len r = .error what := by
      simp [readSlice, bind, StateT.bind, get, getThe, MonadStateOf.get, StateT.get, Except.bind, pure,
        Except.pure, h, throw, throwThe, MonadExceptOf.throw, StateT.lift]
    simp [hrun, h]
  · have hrun : readSlice what len r = .ok (r.slice len, { r with offset := SizeT.add r.offset len }) := by
      simp only [readSlice, bind, StateT.bind, get, getThe, MonadStateOf.get, StateT.get, Except.bind, pure,
        Except.pure, h, if_false]
      rfl
    simp [hrun, h]

theorem map_throws_iff {f : α → β} : (∃ e, (f <$> p) r = .error e) ↔ ∃ e, p r = .error e := by
  simp only [Functor.map, StateT.map, bind, Except.bind]
  cases p r with
  | error e => simp
  | ok q => simp [pure, Except.pure]

theorem bind_throws_iff {f : α → ReadM β} :
    (∃ e, (p >>= f) r = .error e) ↔
      (∃ e, p r = .error e) ∨ ∃ a r', p r = .ok (a, r') ∧ ∃ e, f a r' = .error e := by
  simp only [bind, StateT.bind, Except.bind]
  cases p r with
  | error e => simp
  | ok q =>
    obtain ⟨a, r'⟩ := q
    simp

theorem FieldType.read_throws_iff {t : FieldType} :
    (∃ e, t.read r = .error e) ↔ ∃ c ∈ t.copies r, c.Fails := by
  cases t with
  | string =>
    have hlen : (∃ e, readU32 r = .error e) ↔ Copy.Fails ⟨r, 4⟩ := by
      simp only [readU32, readInt, map_throws_iff, readSlice_throws_iff]
    simp only [FieldType.read, FieldType.copies, readString, map_throws_iff, bind_throws_iff, hlen,
      readSlice_throws_iff, List.mem_cons, exists_eq_or_imp]
    cases readU32 r with
    | error e => simp
    | ok q =>
      obtain ⟨len, r'⟩ := q
      simp
  | _ =>
    simp only [FieldType.read, FieldType.copies, readU8, readU16, readU32, readU64, readInt, map_throws_iff,
      readSlice_throws_iff, List.mem_singleton, exists_eq_left]

/-- A sequence of reads throws exactly where a copy does. -/
theorem readFields_throws_iff {ts : List FieldType} :
    (∃ e, readFields ts r = .error e) ↔ ∃ c ∈ copies ts r, c.Fails := by
  induction ts generalizing r with
  | nil =>
    have hrun : readFields [] r = .ok ([], r) := rfl
    simp [hrun, copies]
  | cons t ts ih =>
    have hbind : readFields (t :: ts) = t.read >>= fun f => (f :: ·) <$> readFields ts := by
      simp [readFields]
    rw [hbind, bind_throws_iff, FieldType.read_throws_iff]
    simp only [copies, List.mem_append, or_and_right, exists_or, map_throws_iff]
    refine or_congr Iff.rfl ?_
    cases t.read r with
    | error e => simp
    | ok q =>
      obtain ⟨f, r'⟩ := q
      simp [ih]

end

/-! ## Fields as formats -/

def FieldType.decoder : FieldType → Decoder Field
  | .u8 => ((int 1).map UInt8.ofNat).map Field.u8
  | .u16 => ((int 2).map UInt16.ofNat).map Field.u16
  | .u32 => ((int 4).map UInt32.ofNat).map Field.u32
  | .u64 => ((int 8).map UInt64.ofNat).map Field.u64
  | .string => (sized 4).map Field.string

/-- A field of this type that can be written. -/
def FieldType.Holds (t : FieldType) (f : Field) : Prop := f.type = t ∧ f.Fits

theorem FieldType.lawful (t : FieldType) : Lawful t.Holds Field.bytes t.decoder := by
  cases t with
  | u8 => exact lawful_u8.image (fun f => by cases f <;> simp [Holds, Field.type, Field.Fits]) fun _ => rfl
  | u16 => exact lawful_u16.image (fun f => by cases f <;> simp [Holds, Field.type, Field.Fits]) fun _ => rfl
  | u32 => exact lawful_u32.image (fun f => by cases f <;> simp [Holds, Field.type, Field.Fits]) fun _ => rfl
  | u64 => exact lawful_u64.image (fun f => by cases f <;> simp [Holds, Field.type, Field.Fits]) fun _ => rfl
  | string =>
    exact lawful_string.image (fun f => by cases f <;> simp [Holds, Field.type, Field.Fits]) fun _ => rfl

theorem FieldType.implements (t : FieldType) : Implements t.read t.decoder := by
  cases t with
  | u8 => exact implements_u8.map _
  | u16 => exact implements_u16.map _
  | u32 => exact implements_u32.map _
  | u64 => exact implements_u64.map _
  | string => exact implements_string.map _

end ConfigServer
