import TateFirmware.Support.Reading

/-!
# The header of a compressed image

`gunzip` skips the header of a gzip file before it calls `inflate`: ten fixed
bytes, then an extra field, a name, a comment and a checksum, each if its flag
is set.  The length of the input is compared once, behind the header.

Offsets count from `src`.  The bytes read are all inside the input exactly if
every string that the flags announce ends in it.
-/

namespace TateFirmware.Boot

open TateFirmware.Support

/-! ## The source -/

/-- `HEAD_CRC`. -/
def headCrc : UInt8 := 2

/-- `EXTRA_FIELD`. -/
def extraField : UInt8 := 4

/-- `ORIG_NAME`. -/
def origName : UInt8 := 8

/-- `COMMENT`. -/
def comment : UInt8 := 0x10

/-- `RESERVED`. -/
def reserved : UInt8 := 0xe0

/-- `DEFLATED`. -/
def deflated : UInt8 := 8

/-- `while (src[i++] != 0);`, for at most `rounds` rounds. -/
def skipString (src : Memory UInt8) : ℕ → ℕ → Reading ℕ
  | 0, _ => .running
  | rounds + 1, i => do
      let c ← .byte src i
      if c ≠ 0 then skipString src rounds (i + 1) else pure (i + 1)

/-- The offset behind the fixed part and the extra field. -/
def skipExtra (src : Memory UInt8) (flags : UInt8) : Reading ℕ :=
  if flags &&& extraField ≠ 0 then do
    let low ← .byte src 10
    let high ← .byte src 11
    pure (12 + low.toNat + high.toNat <<< 8)
  else pure 10

/-- Skip a string if its flag is set. -/
def skipFlagged (src : Memory UInt8) (rounds : ℕ) (set : Prop) [Decidable set]
    (i : ℕ) : Reading ℕ :=
  if set then skipString src rounds i else pure i

/-- The checksum is skipped and the data compared with the end of the input. -/
def dataStart (len : ℕ) (flags : UInt8) (i : ℕ) : Option ℕ :=
  let i := if flags &&& headCrc ≠ 0 then i + 2 else i
  if i ≥ len then none else some i

/-- The fields behind the fixed part, with at most so many rounds for the name
and for the comment: `none` is the return of -1, otherwise the value is the offset
at which `inflate` starts. -/
def skipFields (src : Memory UInt8) (len : ℕ) (flags : UInt8)
    (nameRounds commentRounds : ℕ) : Reading (Option ℕ) := do
  let i ← skipExtra src flags
  let i ← skipFlagged src nameRounds (flags &&& origName ≠ 0) i
  let i ← skipFlagged src commentRounds (flags &&& comment ≠ 0) i
  pure (dataStart len flags i)

/-- The header part of `gunzip`. -/
def gunzipHeader (src : Memory UInt8) (len nameRounds commentRounds : ℕ) :
    Reading (Option ℕ) := do
  let flags ← .byte src 3
  let method ← .byte src 2
  if method ≠ deflated ∨ flags &&& reserved ≠ 0 then pure none
  else skipFields src len flags nameRounds commentRounds

/-! ## Strings in the input -/

/-- How many zero bytes the input has from an offset on. -/
def zerosFrom (src : Memory UInt8) (len i : ℕ) : ℕ :=
  (src.read i (len - i)).count 0

variable {src : Memory UInt8} {len : ℕ}

theorem zerosFrom_of_le {i : ℕ} (h : len ≤ i) : zerosFrom src len i = 0 := by
  rw [zerosFrom, Nat.sub_eq_zero_of_le h]
  rfl

theorem zerosFrom_of_lt {i : ℕ} (h : i < len) :
    zerosFrom src len i =
      zerosFrom src len (i + 1) + if src i = 0 then 1 else 0 := by
  have hlen : len - i = 1 + (len - (i + 1)) := by omega
  have hone : src.read i 1 = [src i] := rfl
  rw [zerosFrom, hlen, Memory.read_add, hone, List.singleton_append,
    List.count_cons, zerosFrom]
  simp only [beq_iff_eq]

/-- A string that ends in the input is skipped inside it; the zeros behind it
are one fewer. -/
theorem skipString_ends {i : ℕ} (hzero : 0 < zerosFrom src len i) :
    ∃ j, zerosFrom src len i = zerosFrom src len j + 1 ∧
      (∃ rounds, (skipString src rounds i).value = some j) ∧
      ∀ rounds, (skipString src rounds i).Within len ∧
        ∀ a, (skipString src rounds i).value = some a → a = j := by
  induction hn : len - i generalizing i with
  | zero => exact absurd hzero (by rw [zerosFrom_of_le (by omega)]; decide)
  | succ n ih =>
      have hi : i < len := by omega
      rw [zerosFrom_of_lt hi] at hzero ⊢
      by_cases hc : src i = 0
      · refine ⟨i + 1, by rw [if_pos hc], ⟨1, by simp [skipString, hc]⟩, ?_⟩
        intro rounds
        cases rounds with
        | zero => simp [skipString]
        | succ rounds => simpa [skipString, hc] using hi
      · rw [if_neg hc, Nat.add_zero] at hzero ⊢
        obtain ⟨j, hj, ⟨rounds, hvalue⟩, hall⟩ := ih hzero (by omega)
        refine ⟨j, hj, ⟨rounds + 1, by simpa [skipString, hc] using hvalue⟩, ?_⟩
        intro rounds
        cases rounds with
        | zero => simp [skipString]
        | succ rounds => simpa [skipString, hc, hi] using hall rounds

/-- A string that does not end in the input is read behind it. -/
theorem skipString_leaves {i : ℕ} (hzero : zerosFrom src len i = 0) :
    ¬ (skipString src (len - i + 1) i).Within len := by
  induction hn : len - i generalizing i with
  | zero =>
      rw [skipString, Reading.within_bind, Reading.within_byte]
      exact fun h => absurd h.1 (by omega)
  | succ n ih =>
      rw [zerosFrom_of_lt (by omega), Nat.add_eq_zero_iff] at hzero
      have hc : src i ≠ 0 := by
        intro hc
        simp [hc] at hzero
      rw [skipString, Reading.within_bind]
      intro h
      refine ih hzero.1 (by omega) ?_
      simpa [hc] using h.2 (src i) (Reading.value_byte src i)

/-- What follows a flagged string is inside the input if it needs at most the
zeros left by that string. -/
theorem skipFlagged_within {β γ : Type} [Inhabited γ] {f : γ → ℕ → Reading β}
    {k : ℕ}
    (hf : ∀ j, (∀ c, (f c j).Within len) ↔ k ≤ zerosFrom src len j)
    (set : Prop) [Decidable set] (i : ℕ) :
    (∀ rounds c, (skipFlagged src rounds set i >>= f c).Within len) ↔
      (if set then 1 else 0) + k ≤ zerosFrom src len i := by
  unfold skipFlagged
  split_ifs with hset
  · rcases Nat.eq_zero_or_pos (zerosFrom src len i) with hzero | hzero
    · refine iff_of_false (fun h => ?_) (by omega)
      exact absurd ((Reading.within_bind _ _).mp (h _ default)).1
        (skipString_leaves hzero)
    · obtain ⟨j, hj, ⟨rounds, hvalue⟩, hall⟩ := skipString_ends hzero
      rw [hj, Nat.add_comm, Nat.add_le_add_iff_right, ← hf]
      constructor
      · intro h c
        exact ((Reading.within_bind _ _).mp (h rounds c)).2 j hvalue
      · intro h rounds c
        refine (Reading.within_bind _ _).mpr ⟨(hall rounds).1, fun a ha => ?_⟩
        rw [(hall rounds).2 a ha]
        exact h c
  · rw [Nat.zero_add, ← hf]
    simp

/-! ## The whole header -/

/-- `gunzip` reads only the input, and passes only data inside it to
`inflate`. -/
def SkipsInside (src : Memory UInt8) (len : ℕ) : Prop :=
  ∀ nameRounds commentRounds,
    (gunzipHeader src len nameRounds commentRounds).Within len ∧
      ∀ i, (gunzipHeader src len nameRounds commentRounds).value =
        some (some i) → i < len

/-- How many strings the flags announce. -/
def stringFlags (flags : UInt8) : ℕ :=
  (if flags &&& origName ≠ 0 then 1 else 0) +
    if flags &&& comment ≠ 0 then 1 else 0

/-- Where the strings start. -/
def stringsAt (src : Memory UInt8) : ℕ :=
  if src 3 &&& extraField ≠ 0 then 12 + (src 10).toNat + (src 11).toNat <<< 8
  else 10

/-- The fields that the header announces are in the input. -/
structure FieldsInside (src : Memory UInt8) (len : ℕ) : Prop where
  extra : src 3 &&& extraField ≠ 0 → 12 ≤ len
  strings : stringFlags (src 3) ≤ zerosFrom src len (stringsAt src)

theorem dataStart_lt {flags : UInt8} {i j : ℕ}
    (h : dataStart len flags i = some j) : j < len := by
  rw [dataStart] at h
  split_ifs at h with _ hge hge
  all_goals
    obtain rfl := Option.some.inj h
    exact not_le.mp hge

/-- A header is accepted only with data inside the input. -/
theorem gunzipHeader_accepts_inside {nameRounds commentRounds i : ℕ}
    (h : (gunzipHeader src len nameRounds commentRounds).value = some (some i)) :
    i < len := by
  simp only [gunzipHeader, Reading.value_bind, Reading.value_byte,
    Option.bind_some] at h
  split_ifs at h with hrefused
  · exact nomatch h
  · simp only [skipFields, Reading.value_bind, Option.bind_eq_some_iff,
      Reading.value_pure, Option.some.injEq] at h
    obtain ⟨_, -, _, -, j, -, hi⟩ := h
    exact dataStart_lt hi

theorem skipExtra_within (src : Memory UInt8) (len : ℕ) :
    (skipExtra src (src 3)).Within len ↔
      (src 3 &&& extraField ≠ 0 → 12 ≤ len) := by
  rw [skipExtra]
  split_ifs with hextra
  · simp only [Reading.within_bind, Reading.within_byte, Reading.within_pure]
    constructor
    · exact fun h _ => (h.2 _ rfl).1
    · intro h
      have hlen := h hextra
      exact ⟨by omega, fun _ _ => ⟨hlen, fun _ _ => trivial⟩⟩
  · exact iff_of_true (Reading.within_pure _ _) fun h => absurd h hextra

theorem skipExtra_value (src : Memory UInt8) :
    (skipExtra src (src 3)).value = some (stringsAt src) := by
  rw [skipExtra, stringsAt]
  split_ifs <;> rfl

/-- The fields are read inside the input if and only if they are there. -/
theorem skipFields_within (src : Memory UInt8) (len : ℕ) :
    (∀ nameRounds commentRounds,
      (skipFields src len (src 3) nameRounds commentRounds).Within len) ↔
      FieldsInside src len := by
  have hcomment : ∀ i, (∀ rounds,
      (skipFlagged src rounds (src 3 &&& comment ≠ 0) i >>= fun i =>
        (pure (dataStart len (src 3) i) : Reading (Option ℕ))).Within len) ↔
      (if src 3 &&& comment ≠ 0 then 1 else 0) ≤ zerosFrom src len i := by
    intro i
    have hend : ∀ j, (∀ _ : Unit, (pure (dataStart len (src 3) j) :
        Reading (Option ℕ)).Within len) ↔ 0 ≤ zerosFrom src len j :=
      fun j => iff_of_true (fun _ => Reading.within_pure _ _) (Nat.zero_le _)
    have hlast := skipFlagged_within hend (src 3 &&& comment ≠ 0) i
    exact (forall_congr' fun _ => (forall_const Unit).symm).trans hlast
  have hstrings :=
    skipFlagged_within hcomment (src 3 &&& origName ≠ 0) (stringsAt src)
  constructor
  · intro h
    refine ⟨(skipExtra_within src len).mp ((Reading.within_bind _ _).mp (h 0 0)).1,
      hstrings.mp fun n c => ?_⟩
    exact ((Reading.within_bind _ _).mp (h n c)).2 _ (skipExtra_value src)
  · intro h n c
    refine (Reading.within_bind _ _).mpr
      ⟨(skipExtra_within src len).mpr h.extra, ?_⟩
    intro i hi
    obtain rfl := Option.some.inj (hi.symm.trans (skipExtra_value src))
    exact hstrings.mpr h.strings n c

/-- `gunzip` skips the header inside the input if and only if the input has its
flags and, unless it is refused for them, all the fields they announce. -/
theorem skipsInside_iff (src : Memory UInt8) (len : ℕ) :
    SkipsInside src len ↔
      4 ≤ len ∧
        (src 2 = deflated → src 3 &&& reserved = 0 → FieldsInside src len) := by
  have hreads : SkipsInside src len ↔ ∀ nameRounds commentRounds,
      (gunzipHeader src len nameRounds commentRounds).Within len :=
    ⟨fun h n c => (h n c).1,
      fun h n c => ⟨h n c, fun _ => gunzipHeader_accepts_inside⟩⟩
  rw [hreads, ← skipFields_within]
  constructor
  · intro h
    have hflags := ((Reading.within_bind _ _).mp (h 0 0)).1
    refine ⟨(Reading.within_byte _).mp hflags, fun hmethod hreserved n c => ?_⟩
    have hfields := ((Reading.within_bind _ _).mp
      (((Reading.within_bind _ _).mp (h n c)).2 _ rfl)).2 _ rfl
    rwa [if_neg (by simp [hmethod, hreserved])] at hfields
  · intro ⟨hlen, hfields⟩ n c
    refine (Reading.within_bind _ _).mpr ⟨(Reading.within_byte _).mpr hlen, ?_⟩
    rintro _ ⟨⟩
    refine (Reading.within_bind _ _).mpr
      ⟨(Reading.within_byte _).mpr (by omega), ?_⟩
    rintro _ ⟨⟩
    split_ifs with hrefused
    · exact Reading.within_pure _ _
    · rw [not_or, not_not, not_not] at hrefused
      exact hfields hrefused.1 hrefused.2 n c

/-- Ten bytes that announce a name. -/
def namedHeader : Memory UInt8 :=
  Memory.ofList 0x41 [0x1f, 0x8b, 8, 8, 0, 0, 0, 0, 0, 3]

/-- The input ends in front of the name it announces. -/
theorem namedHeader_not_skipsInside : ¬ SkipsInside namedHeader 10 := by
  intro h
  have hname := (h 1 0).1 10 (by decide)
  exact absurd hname (by decide)

end TateFirmware.Boot
