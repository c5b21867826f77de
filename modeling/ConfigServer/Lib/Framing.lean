/-
Cutting a stream into frames. A `Cutter` looks at the front of what has
arrived and answers: a good frame of some size, an offending frame, or not
enough yet. More input never changes the first two answers; this is all a
resumable parser needs for the way the stream is chopped up not to matter.

`Cutter.parse` parses a whole string, `Cutter.feed` continues a parse with one
more chunk, and `feed_flatten` says any chopping gives the whole parse.
-/
import Mathlib.Data.List.Basic

namespace Framing

variable {β P E : Type*}

/-- What the front of a stream holds. -/
inductive Front (P E : Type*)
  | more
  | bad (e : E)
  | frame (p : P) (size : Nat)

/-- A rule for cutting frames off a stream, stable under more input. -/
structure Cutter (β P E : Type*) where
  front : List β → Front P E
  front_nil : front [] = .more
  size_pos : ∀ {bs p n}, front bs = .frame p n → 0 < n
  size_le : ∀ {bs p n}, front bs = .frame p n → n ≤ bs.length
  frame_append : ∀ {bs p n} t, front bs = .frame p n → front (bs ++ t) = .frame p n
  bad_append : ∀ {bs e} t, front bs = .bad e → front (bs ++ t) = .bad e

/-- How a parse stands: waiting for more after `pending`, or stopped at an offending frame. -/
inductive Status (β E : Type*)
  | reading (pending : List β)
  | closed (e : E)

/-- The frames taken so far, how much of the stream they cover, and the status. -/
structure Outcome (β P E : Type*) where
  items : List P
  used : Nat
  status : Status β E

/-- What follows `r` in time adds its frames after those of `r`. -/
def Outcome.andThen (r s : Outcome β P E) : Outcome β P E :=
  ⟨r.items ++ s.items, r.used + s.used, s.status⟩

theorem Outcome.andThen_assoc (r s t : Outcome β P E) :
    (r.andThen s).andThen t = r.andThen (s.andThen t) := by
  simp [Outcome.andThen, Nat.add_assoc]

namespace Cutter

variable (c : Cutter β P E)

/-- Parse a whole string, frame by frame from its front. -/
def parse (bs : List β) : Outcome β P E :=
  match _hfront : c.front bs with
  | .more => ⟨[], 0, .reading bs⟩
  | .bad e => ⟨[], 0, .closed e⟩
  | .frame p n => Outcome.andThen ⟨[p], n, .reading (bs.drop n)⟩ (parse (bs.drop n))
termination_by bs.length
decreasing_by
  have h₁ := c.size_pos _hfront
  have h₂ := c.size_le _hfront
  simp only [List.length_drop]
  omega

/-- Continue a parse with the next chunk of the stream. -/
def feed (s : Outcome β P E) (chunk : List β) : Outcome β P E :=
  match s.status with
  | .reading pending => s.andThen (c.parse (pending ++ chunk))
  | .closed _ => s

variable {c}

theorem parse_more {bs : List β} (h : c.front bs = .more) : c.parse bs = ⟨[], 0, .reading bs⟩ := by
  rw [parse]
  split <;> simp_all

theorem parse_bad {bs : List β} {e : E} (h : c.front bs = .bad e) : c.parse bs = ⟨[], 0, .closed e⟩ := by
  rw [parse]
  split <;> simp_all

theorem parse_frame {bs : List β} {p : P} {n : Nat} (h : c.front bs = .frame p n) :
    c.parse bs = Outcome.andThen ⟨[p], n, .reading (bs.drop n)⟩ (c.parse (bs.drop n)) := by
  rw [parse]
  split <;> simp_all

/-- Parsing a concatenation: parse the first part, then what it left pending with the second. -/
theorem parse_append (x y : List β) : c.parse (x ++ y) = c.feed (c.parse x) y := by
  induction hx : x.length using Nat.strongRecOn generalizing x with
  | ind len ih =>
    cases h : c.front x with
    | more => simp [parse_more h, feed, Outcome.andThen]
    | bad e => simp [parse_bad h, parse_bad (c.bad_append y h), feed]
    | frame p n =>
      have hpos := c.size_pos h
      have hle := c.size_le h
      have hrest := ih (x.drop n).length (by simp only [List.length_drop]; omega) (x.drop n) rfl
      rw [parse_frame h, parse_frame (c.frame_append y h), List.drop_append_of_le_length hle, hrest]
      cases hs : (c.parse (x.drop n)).status with
      | reading r => simp [feed, Outcome.andThen, hs, Nat.add_assoc]
      | closed e => simp [feed, Outcome.andThen, hs]

theorem feed_andThen (r s : Outcome β P E) (chunk : List β) :
    c.feed (r.andThen s) chunk = r.andThen (c.feed s chunk) := by
  cases hs : s.status with
  | reading pending => simp [feed, Outcome.andThen, hs, Nat.add_assoc]
  | closed e => simp [feed, Outcome.andThen, hs]

/-- **Chunk independence.** Feeding the chunks of a stream one by one gives
the parse of the whole stream, wherever it was cut. -/
theorem feed_flatten (x : List β) (chunks : List (List β)) :
    chunks.foldl c.feed (c.parse x) = c.parse (x ++ chunks.flatten) := by
  induction chunks generalizing x with
  | nil => simp
  | cons chunk chunks ih =>
    rw [List.foldl_cons, ← parse_append, ih, List.flatten_cons, List.append_assoc]

/-- What is left pending is the stream past the frames taken. -/
theorem parse_pending {bs p : List β} (h : (c.parse bs).status = .reading p) :
    (c.parse bs).used ≤ bs.length ∧ p = bs.drop (c.parse bs).used := by
  induction hx : bs.length using Nat.strongRecOn generalizing bs with
  | ind len ih =>
    cases hf : c.front bs with
    | more =>
      rw [parse_more hf] at h ⊢
      cases h
      simp
    | bad e => rw [parse_bad hf] at h; cases h
    | frame q n =>
      have hpos := c.size_pos hf
      have hle := c.size_le hf
      rw [parse_frame hf] at h ⊢
      obtain ⟨hused, hp⟩ := ih (bs.drop n).length (by simp only [List.length_drop]; omega) h rfl
      simp only [List.length_drop] at hused
      refine ⟨by simp only [Outcome.andThen]; omega, ?_⟩
      rw [hp, List.drop_drop]
      rfl

/-- What is left pending is not enough for a frame. -/
theorem front_pending {bs p : List β} (h : (c.parse bs).status = .reading p) : c.front p = .more := by
  induction hx : bs.length using Nat.strongRecOn generalizing bs with
  | ind len ih =>
    cases hf : c.front bs with
    | more =>
      rw [parse_more hf] at h
      cases h
      exact hf
    | bad e =>
      rw [parse_bad hf] at h
      cases h
    | frame q n =>
      have hpos := c.size_pos hf
      have hle := c.size_le hf
      rw [parse_frame hf] at h
      exact ih (bs.drop n).length (by simp only [List.length_drop]; omega) h rfl

/-- Where every frame takes `k` of the stream at least, there are so many frames at most. -/
theorem parse_length_le {k : Nat} (hk : ∀ {bs p n}, c.front bs = .frame p n → k ≤ n) (bs : List β) :
    k * (c.parse bs).items.length ≤ bs.length := by
  induction hx : bs.length using Nat.strongRecOn generalizing bs with
  | ind len ih =>
    cases hf : c.front bs with
    | more =>
      rw [parse_more hf]
      exact Nat.zero_le _
    | bad e =>
      rw [parse_bad hf]
      exact Nat.zero_le _
    | frame q n =>
      have hpos := c.size_pos hf
      have hle := c.size_le hf
      have hsize := hk hf
      have hrest := ih (bs.drop n).length (by simp only [List.length_drop]; omega) (bs.drop n) rfl
      rw [parse_frame hf, Outcome.andThen]
      simp only [List.length_append, List.length_singleton, List.length_drop, Nat.mul_add,
        Nat.mul_one] at hrest ⊢
      omega

/-- A stream of good frames followed by anything parses to their items and then the parse of the rest. -/
theorem parse_frames {frames : List (List β × P)}
    (h : ∀ f ∈ frames, ∀ t, c.front (f.1 ++ t) = .frame f.2 f.1.length) (t : List β) :
    c.parse ((frames.map (·.1)).flatten ++ t) =
      Outcome.andThen ⟨frames.map (·.2), (frames.map (·.1)).flatten.length, .reading t⟩ (c.parse t) := by
  induction frames with
  | nil => simp [Outcome.andThen]
  | cons f frames ih =>
    have hf := h f List.mem_cons_self
    have hrest := ih fun g hg => h g (List.mem_cons_of_mem f hg)
    simp only [List.map_cons, List.flatten_cons, List.append_assoc]
    rw [parse_frame (hf _), List.drop_left, hrest]
    simp [Outcome.andThen, Nat.add_assoc]

/-- More input only adds items. -/
theorem parse_items_prefix {bs bs' : List β} (h : bs <+: bs') : (c.parse bs).items <+: (c.parse bs').items := by
  obtain ⟨t, rfl⟩ := h
  rw [parse_append, feed]
  split
  · exact List.prefix_append _ _
  · exact List.prefix_rfl

/-- Of messages each of which is a good frame or is refused, the first ones are taken. -/
theorem parse_items_messages {messages : List (List β × P)}
    (h : ∀ m ∈ messages, c.front m.1 = .frame m.2 m.1.length ∨ ∃ e, c.front m.1 = .bad e) :
    (c.parse (messages.map (·.1)).flatten).items <+: messages.map (·.2) := by
  induction messages with
  | nil =>
    rw [List.map_nil, List.flatten_nil, parse_more c.front_nil]
    exact List.nil_prefix
  | cons m messages ih =>
    have hrest := ih fun m' hm' => h m' (List.mem_cons_of_mem m hm')
    rw [List.map_cons, List.flatten_cons]
    rcases h m List.mem_cons_self with hframe | ⟨e, hbad⟩
    · rw [parse_frame (c.frame_append _ hframe), List.drop_left]
      exact List.prefix_cons_inj _ |>.2 hrest
    · rw [parse_bad (c.bad_append _ hbad)]
      exact List.nil_prefix

/-- If a parse of such messages has refused none of them, it has taken all. -/
theorem parse_messages_reading {messages : List (List β × P)}
    (h : ∀ m ∈ messages, c.front m.1 = .frame m.2 m.1.length ∨ ∃ e, c.front m.1 = .bad e) {p : List β}
    (hstatus : (c.parse (messages.map (·.1)).flatten).status = .reading p) :
    (c.parse (messages.map (·.1)).flatten).items = messages.map (·.2) := by
  induction messages with
  | nil =>
    rw [List.map_nil, List.flatten_nil, parse_more c.front_nil]
    rfl
  | cons m messages ih =>
    rw [List.map_cons, List.flatten_cons] at hstatus ⊢
    rcases h m List.mem_cons_self with hframe | ⟨e, hbad⟩
    · rw [parse_frame (c.frame_append _ hframe), List.drop_left] at hstatus ⊢
      exact congrArg (m.2 :: ·) (ih (fun m' hm' => h m' (List.mem_cons_of_mem m hm')) hstatus)
    · rw [parse_bad (c.bad_append _ hbad)] at hstatus
      cases hstatus

end Cutter

end Framing
