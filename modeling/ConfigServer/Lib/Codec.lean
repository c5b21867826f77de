/-
Decoders that take a value off the front of a byte string, and the law that
ties one to an encoder: on a domain of values, what was encoded is decoded
back with the following bytes untouched, and nothing else is decoded.

The law is closed under the ways wire formats are put together: fields in
sequence, a length in front of a string, a check on the value read, a change
of the value's type.
-/
import ConfigServer.Lib.LittleEndian

namespace Codec

open LittleEndian

variable {α β : Type*}

/-- Takes a value off the front of a byte string, or fails. -/
abbrev Decoder (α : Type*) := Bytes → Option (α × Bytes)

/-- One decoder after another, the second chosen by what the first read. -/
def Decoder.bind (d : Decoder α) (f : α → Decoder β) : Decoder β :=
  fun bs => (d bs).bind fun (a, t) => f a t

def Decoder.map (f : α → β) (d : Decoder α) : Decoder β :=
  fun bs => (d bs).map fun (a, t) => (f a, t)

/-- A decoder that refuses values failing a check. -/
def Decoder.filter (p : α → Bool) (d : Decoder α) : Decoder α :=
  fun bs => (d bs).filter fun (a, _) => p a

/-- Two fields in sequence. -/
def Decoder.seq (d : Decoder α) (e : Decoder β) : Decoder (α × β) :=
  d.bind fun a => e.map fun b => (a, b)

/-- Fields of one type in sequence, each with its own decoder. -/
def Decoder.all : List (Decoder α) → Decoder (List α)
  | [] => fun bs => some ([], bs)
  | d :: ds => d.bind fun a => (all ds).map (a :: ·)

/-- The next `n` bytes. -/
def take (n : Nat) : Decoder Bytes :=
  fun bs => if n ≤ bs.length then some (bs.take n, bs.drop n) else none

/-- A little-endian natural of width `w`. -/
def int (w : Nat) : Decoder Nat := (take w).map leNat

/-- A byte string after its length of width `w`. -/
def sized (w : Nat) : Decoder Bytes := (int w).bind take

/-- `dec` reads back exactly what `enc` writes for values in `dom`. -/
structure Lawful (dom : α → Prop) (enc : α → Bytes) (dec : Decoder α) : Prop where
  decodes : ∀ {a} t, dom a → dec (enc a ++ t) = some (a, t)
  encodes : ∀ {bs a t}, dec bs = some (a, t) → dom a ∧ bs = enc a ++ t

theorem take_append {n : Nat} {bs : Bytes} (h : bs.length = n) (t : Bytes) :
    take n (bs ++ t) = some (bs, t) := by
  subst h
  simp [take]

theorem take_eq_some {n : Nat} {bs a t : Bytes} (h : take n bs = some (a, t)) :
    a.length = n ∧ bs = a ++ t := by
  unfold take at h
  split at h
  · next hn =>
    simp only [Option.some.injEq, Prod.mk.injEq] at h
    obtain ⟨rfl, rfl⟩ := h
    exact ⟨by simpa using hn, (List.take_append_drop n bs).symm⟩
  · cases h

theorem map_eq_some {f : α → β} {d : Decoder α} {bs t : Bytes} {b : β} :
    d.map f bs = some (b, t) ↔ ∃ a, d bs = some (a, t) ∧ f a = b := by
  simp only [Decoder.map, Option.map_eq_some_iff, Prod.exists, Prod.mk.injEq]
  constructor
  · rintro ⟨a, t', h, rfl, rfl⟩
    exact ⟨a, h, rfl⟩
  · rintro ⟨a, h, rfl⟩
    exact ⟨a, t, h, rfl, rfl⟩

theorem bind_eq_some {d : Decoder α} {f : α → Decoder β} {bs t : Bytes} {b : β} :
    d.bind f bs = some (b, t) ↔ ∃ a t', d bs = some (a, t') ∧ f a t' = some (b, t) := by
  simp [Decoder.bind, Option.bind_eq_some_iff]

theorem seq_eq_some {d : Decoder α} {e : Decoder β} {bs t : Bytes} {p : α × β} :
    d.seq e bs = some (p, t) ↔ ∃ t', d bs = some (p.1, t') ∧ e t' = some (p.2, t) := by
  obtain ⟨a, b⟩ := p
  simp only [Decoder.seq, bind_eq_some, map_eq_some, Prod.mk.injEq]
  constructor
  · rintro ⟨a, t', h₁, b, h₂, rfl, rfl⟩
    exact ⟨t', h₁, h₂⟩
  · rintro ⟨t', h₁, h₂⟩
    exact ⟨a, t', h₁, b, h₂, rfl, rfl⟩

/-! ## Lawful formats -/

theorem lawful_int (w : Nat) : Lawful (· < 256 ^ w) (leBytes w) (int w) where
  decodes t h := map_eq_some.2 ⟨_, take_append (leBytes_length w _) t, leNat_leBytes_of_lt h⟩
  encodes h := by
    obtain ⟨bs, h₁, rfl⟩ := map_eq_some.1 h
    obtain ⟨rfl, rfl⟩ := take_eq_some h₁
    exact ⟨leNat_lt bs, by rw [leBytes_leNat]⟩

theorem lawful_sized (w : Nat) :
    Lawful (fun s : Bytes => s.length < 256 ^ w) (fun s => leBytes w s.length ++ s) (sized w) where
  decodes {s} t h := by
    refine bind_eq_some.2 ⟨s.length, s ++ t, ?_, take_append rfl t⟩
    rw [List.append_assoc]
    exact (lawful_int w).decodes _ h
  encodes h := by
    obtain ⟨n, t', h₁, h₂⟩ := bind_eq_some.1 h
    obtain ⟨hn, rfl⟩ := (lawful_int w).encodes h₁
    obtain ⟨rfl, rfl⟩ := take_eq_some h₂
    exact ⟨hn, by simp⟩

section
variable {dom : α → Prop} {enc : α → Bytes} {dec : Decoder α}
variable {dom' : β → Prop} {enc' : β → Bytes} {dec' : Decoder β}

theorem Lawful.seq (h : Lawful dom enc dec) (h' : Lawful dom' enc' dec') :
    Lawful (fun p : α × β => dom p.1 ∧ dom' p.2) (fun p => enc p.1 ++ enc' p.2) (dec.seq dec') where
  decodes {p} t hp := by
    refine seq_eq_some.2 ⟨enc' p.2 ++ t, ?_, h'.decodes t hp.2⟩
    rw [List.append_assoc]
    exact h.decodes _ hp.1
  encodes hp := by
    obtain ⟨t', h₁, h₂⟩ := seq_eq_some.1 hp
    obtain ⟨hd, rfl⟩ := h.encodes h₁
    obtain ⟨hd', rfl⟩ := h'.encodes h₂
    exact ⟨⟨hd, hd'⟩, by simp⟩

/-- The same format for values of another type, in correspondence with the first. -/
theorem Lawful.map (h : Lawful dom enc dec) {f : α → β} {g : β → α} (hfg : ∀ b, f (g b) = b)
    (hgf : ∀ a, dom a → g (f a) = a) :
    Lawful (fun b => dom (g b)) (fun b => enc (g b)) (dec.map f) where
  decodes {b} t hb := map_eq_some.2 ⟨g b, h.decodes t hb, hfg b⟩
  encodes hb := by
    obtain ⟨a, ha, rfl⟩ := map_eq_some.1 hb
    obtain ⟨hd, rfl⟩ := h.encodes ha
    rw [hgf a hd]
    exact ⟨hd, rfl⟩

/-- The same format as part of a larger type. -/
theorem Lawful.image (h : Lawful dom enc dec) {f : α → β} (hdom : ∀ b, dom' b ↔ ∃ a, dom a ∧ f a = b)
    (henc : ∀ a, enc' (f a) = enc a) : Lawful dom' enc' (dec.map f) where
  decodes {b} t hb := by
    obtain ⟨a, ha, rfl⟩ := (hdom b).1 hb
    rw [henc]
    exact map_eq_some.2 ⟨a, h.decodes t ha, rfl⟩
  encodes hb := by
    obtain ⟨a, ha, rfl⟩ := map_eq_some.1 hb
    obtain ⟨hd, rfl⟩ := h.encodes ha
    exact ⟨(hdom _).2 ⟨a, hd, rfl⟩, by rw [henc]⟩

/-- A format on which every value is in the domain. -/
theorem Lawful.total (h : Lawful dom enc dec) (hdom : ∀ a, dom a) : Lawful (fun _ => True) enc dec :=
  ⟨fun t _ => h.decodes t (hdom _), fun hd => ⟨trivial, (h.encodes hd).2⟩⟩

theorem Lawful.filter (h : Lawful dom enc dec) (p : α → Bool) :
    Lawful (fun a => dom a ∧ p a = true) enc (dec.filter p) where
  decodes t ha := by
    rw [Decoder.filter, h.decodes t ha.1]
    simp [Option.filter, ha.2]
  encodes ha := by
    rw [Decoder.filter, Option.filter_eq_some_iff] at ha
    obtain ⟨hd, rfl⟩ := h.encodes ha.1
    exact ⟨⟨hd, ha.2⟩, rfl⟩

end

/-- Fields whose kinds are known, one after the other. -/
theorem Lawful.all {κ : Type*} {dom : κ → α → Prop} {enc : α → Bytes} {dec : κ → Decoder α}
    (h : ∀ k, Lawful (dom k) enc (dec k)) (ks : List κ) :
    Lawful (List.Forall₂ dom ks) (fun as => as.flatMap enc) (Decoder.all (ks.map dec)) := by
  induction ks with
  | nil =>
    refine ⟨fun t has => ?_, fun has => ?_⟩
    · cases has
      rfl
    · cases has
      exact ⟨.nil, rfl⟩
  | cons k ks ih =>
    refine ⟨fun t has => ?_, fun has => ?_⟩
    · cases has with
      | @cons _ a _ as ha has =>
        refine bind_eq_some.2 ⟨a, as.flatMap enc ++ t, ?_, map_eq_some.2 ⟨as, ih.decodes t has, rfl⟩⟩
        rw [List.flatMap_cons, List.append_assoc]
        exact (h k).decodes _ ha
    · obtain ⟨a, t', ha, hrest⟩ := bind_eq_some.1 has
      obtain ⟨as, htail, rfl⟩ := map_eq_some.1 hrest
      obtain ⟨hdom, rfl⟩ := (h k).encodes ha
      obtain ⟨hdoms, rfl⟩ := ih.encodes htail
      exact ⟨.cons hdom hdoms, by rw [List.flatMap_cons, List.append_assoc]⟩

/-- A machine integer of `w` bytes, given by its conversions to and from naturals. -/
theorem lawful_word (w : Nat) {toNat : α → Nat} {ofNat : Nat → α} (hof : ∀ a, ofNat (toNat a) = a)
    (hto : ∀ n, n < 256 ^ w → toNat (ofNat n) = n) (hlt : ∀ a, toNat a < 256 ^ w) :
    Lawful (fun _ => True) (fun a => leBytes w (toNat a)) ((int w).map ofNat) :=
  ((lawful_int w).map hof hto).total hlt

end Codec
