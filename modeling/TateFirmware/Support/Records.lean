import TateFirmware.Support.Memory

/-!
# Records in memory

A record has a length and consists of parts at offsets inside it; what stands
between the parts is not asked for.  Records are laid out one behind the other.
Writing the parts of a record in any order leaves all of them in memory when
they do not overlap, and a write behind a row of records leaves the row alone.
The last section is about 32-bit words, in little-endian and in big-endian order.
-/

namespace TateFirmware.Support

/-! ## Parts -/

namespace Memory

variable {α : Type*}

/-- Write each part at its offset from `p`. -/
def writeParts (m : Memory α) (p : ℕ) (parts : List (ℕ × List α)) :
    Memory α :=
  parts.foldl (fun m part => m.copyIn (p + part.1) part.2) m

/-- Each part stands at its offset from `p`. -/
def HoldsParts (m : Memory α) (p : ℕ) (parts : List (ℕ × List α)) : Prop :=
  ∀ part ∈ parts, Holds m (p + part.1) part.2

/-- One of two parts ends before the other starts. -/
def Apart (a b : ℕ × List α) : Prop :=
  a.1 + a.2.length ≤ b.1 ∨ b.1 + b.2.length ≤ a.1

@[simp] theorem writeParts_nil (m : Memory α) (p : ℕ) :
    m.writeParts p [] = m := rfl

theorem writeParts_cons (m : Memory α) (p : ℕ) (part : ℕ × List α)
    (parts : List (ℕ × List α)) :
    m.writeParts p (part :: parts) =
      (m.copyIn (p + part.1) part.2).writeParts p parts := rfl

/-- A cell outside every part is left alone. -/
theorem writeParts_of_outside {m : Memory α} {p k : ℕ}
    {parts : List (ℕ × List α)}
    (hout : ∀ part ∈ parts, k < p + part.1 ∨ p + part.1 + part.2.length ≤ k) :
    m.writeParts p parts k = m k := by
  induction parts generalizing m with
  | nil => rfl
  | cons part parts ih =>
      rw [writeParts_cons, ih fun b hb => hout b (List.mem_cons_of_mem part hb)]
      rcases hout part List.mem_cons_self with hlt | hge
      · exact copyIn_of_lt _ hlt
      · exact copyIn_of_ge hge

/-- Parts that do not overlap are all there after they have been written. -/
theorem holdsParts_writeParts (m : Memory α) (p : ℕ)
    {parts : List (ℕ × List α)} (hapart : parts.Pairwise Apart) :
    HoldsParts (m.writeParts p parts) p parts := by
  induction parts generalizing m with
  | nil => exact fun _ h => absurd h List.not_mem_nil
  | cons part parts ih =>
      obtain ⟨hfirst, hrest⟩ := List.pairwise_cons.mp hapart
      rw [writeParts_cons]
      intro other hother
      rcases List.mem_cons.mp hother with rfl | hother
      · refine (holds_copyIn m _ other.2).congr ?_
        intro k hge hlt
        apply writeParts_of_outside
        intro b hb
        rcases hfirst b hb with hbefore | hbehind
        · exact Or.inl (by omega)
        · exact Or.inr (by omega)
      · exact ih _ hrest other hother

theorem HoldsParts.congr {m m' : Memory α} {p n : ℕ}
    {parts : List (ℕ × List α)} (h : HoldsParts m p parts)
    (hwithin : ∀ part ∈ parts, part.1 + part.2.length ≤ n)
    (hsame : ∀ k, p ≤ k → k < p + n → m' k = m k) :
    HoldsParts m' p parts := by
  intro part hpart
  refine (h part hpart).congr ?_
  intro k hge hlt
  have hn := hwithin part hpart
  exact hsame k (by omega) (by omega)

end Memory

/-! ## Rows of records -/

/-- A record: its length, and its parts. -/
structure Record (α : Type*) where
  len : ℕ
  parts : List (ℕ × List α)

/-- The parts are inside the record and do not overlap. -/
structure Record.Fits {α : Type*} (r : Record α) : Prop where
  within : ∀ part ∈ r.parts, part.1 + part.2.length ≤ r.len
  apart : r.parts.Pairwise Memory.Apart

namespace Memory

variable {α : Type*}

/-- The records stand in memory one behind the other, from `p` up to `q`. -/
def HoldsRecords (m : Memory α) : ℕ → List (Record α) → ℕ → Prop
  | p, [], q => p = q
  | p, r :: rs, q =>
      (r.Fits ∧ HoldsParts m p r.parts) ∧ HoldsRecords m (p + r.len) rs q

theorem HoldsRecords.le {m : Memory α} {p q : ℕ} {rs : List (Record α)}
    (h : HoldsRecords m p rs q) : p ≤ q := by
  induction rs generalizing p with
  | nil => exact Nat.le_of_eq h
  | cons r rs ih => exact Nat.le_trans (Nat.le_add_right p r.len) (ih h.2)

/-- A row depends on its own cells only. -/
theorem HoldsRecords.congr {m m' : Memory α} {p q : ℕ} {rs : List (Record α)}
    (h : HoldsRecords m p rs q)
    (hsame : ∀ k, p ≤ k → k < q → m' k = m k) : HoldsRecords m' p rs q := by
  induction rs generalizing p with
  | nil => exact h
  | cons r rs ih =>
      have hle := HoldsRecords.le h.2
      obtain ⟨hfits, hparts⟩ := h.1
      refine ⟨⟨hfits, hparts.congr hfits.within ?_⟩, ih h.2 ?_⟩
      · intro k hge hlt
        exact hsame k hge (by omega)
      · intro k hge hlt
        exact hsame k (by omega) hlt

theorem HoldsRecords.append {m : Memory α} {p q : ℕ} {rs : List (Record α)}
    (h : HoldsRecords m p rs q) {r : Record α} (hfits : r.Fits)
    (hr : HoldsParts m q r.parts) :
    HoldsRecords m p (rs ++ [r]) (q + r.len) := by
  induction rs generalizing p with
  | nil =>
      have hpq : p = q := h
      subst hpq
      exact ⟨⟨hfits, hr⟩, rfl⟩
  | cons r' rs ih => exact ⟨h.1, ih h.2⟩

/-- Writing a record behind a row makes the row longer. -/
theorem HoldsRecords.writeParts {m : Memory α} {p q : ℕ}
    {rs : List (Record α)} (h : HoldsRecords m p rs q) {r : Record α}
    (hfits : r.Fits) :
    HoldsRecords (m.writeParts q r.parts) p (rs ++ [r]) (q + r.len) := by
  refine (h.congr ?_).append hfits (holdsParts_writeParts m q hfits.apart)
  intro k _ hlt
  apply writeParts_of_outside
  intro part _
  exact Or.inl (by omega)

end Memory

/-! ## Words -/

/-- The bytes of a 32-bit word. -/
def leBytes (n : ℕ) : List UInt8 :=
  [UInt8.ofNat n, UInt8.ofNat (n / 2 ^ 8), UInt8.ofNat (n / 2 ^ 16),
    UInt8.ofNat (n / 2 ^ 24)]

@[simp] theorem leBytes_length (n : ℕ) : (leBytes n).length = 4 := rfl

/-- The 32-bit word at an address. -/
def Memory.leWord (m : Memory UInt8) (p : ℕ) : ℕ :=
  (m p).toNat + (m (p + 1)).toNat * 2 ^ 8 + (m (p + 2)).toNat * 2 ^ 16 +
    (m (p + 3)).toNat * 2 ^ 24

theorem Memory.Holds.leWord {m : Memory UInt8} {p n : ℕ}
    (h : Memory.Holds m p (leBytes n)) : m.leWord p = n % 2 ^ 32 := by
  have h0 : m p = UInt8.ofNat n := h 0 (by simp)
  have h1 : m (p + 1) = UInt8.ofNat (n / 2 ^ 8) := h 1 (by simp)
  have h2 : m (p + 2) = UInt8.ofNat (n / 2 ^ 16) := h 2 (by simp)
  have h3 : m (p + 3) = UInt8.ofNat (n / 2 ^ 24) := h 3 (by simp)
  unfold Memory.leWord
  rw [h0, h1, h2, h3]
  simp only [UInt8.toNat_ofNat']
  omega

/-- The 16-bit word at an address. -/
def Memory.leHalf (m : Memory UInt8) (p : ℕ) : ℕ :=
  (m p).toNat + (m (p + 1)).toNat * 2 ^ 8

theorem Memory.leHalf_lt (m : Memory UInt8) (p : ℕ) : m.leHalf p < 2 ^ 16 := by
  have hlow := (m p).toNat_lt
  have hhigh := (m (p + 1)).toNat_lt
  unfold Memory.leHalf
  omega

/-- The bytes of a 64-bit word. -/
def leBytes64 (n : ℕ) : List UInt8 := leBytes n ++ leBytes (n / 2 ^ 32)

@[simp] theorem leBytes64_length (n : ℕ) : (leBytes64 n).length = 8 := rfl

/-- The 64-bit word at an address. -/
def Memory.leWord64 (m : Memory UInt8) (p : ℕ) : ℕ :=
  m.leWord p + m.leWord (p + 4) * 2 ^ 32

theorem Memory.Holds.leWord64 {m : Memory UInt8} {p n : ℕ}
    (h : Memory.Holds m p (leBytes64 n)) : m.leWord64 p = n % 2 ^ 64 := by
  obtain ⟨hlow, hhigh⟩ := Memory.holds_append.mp h
  have hlow' := hlow.leWord
  have hhigh' : m.leWord (p + 4) = n / 2 ^ 32 % 2 ^ 32 := hhigh.leWord
  rw [Memory.leWord64, hlow', hhigh']
  omega

/-- A word depends on its own bytes only. -/
theorem Memory.leWord_congr {m m' : Memory UInt8} {p q : ℕ}
    (h : ∀ k < 4, m' (q + k) = m (p + k)) : m'.leWord q = m.leWord p := by
  have h0 : m' q = m p := h 0 (by decide)
  rw [Memory.leWord, Memory.leWord, h0, h 1 (by decide), h 2 (by decide),
    h 3 (by decide)]

theorem Memory.leHalf_congr {m m' : Memory UInt8} {p q : ℕ}
    (h : ∀ k < 2, m' (q + k) = m (p + k)) : m'.leHalf q = m.leHalf p := by
  have h0 : m' q = m p := h 0 (by decide)
  rw [Memory.leHalf, Memory.leHalf, h0, h 1 (by decide)]

theorem Memory.leWord64_congr {m m' : Memory UInt8} {p q : ℕ}
    (h : ∀ k < 8, m' (q + k) = m (p + k)) : m'.leWord64 q = m.leWord64 p := by
  have hlow : m'.leWord q = m.leWord p :=
    Memory.leWord_congr fun k hk => h k (by omega)
  have hhigh : m'.leWord (q + 4) = m.leWord (p + 4) := by
    refine Memory.leWord_congr fun k hk => ?_
    rw [Nat.add_assoc, Nat.add_assoc]
    exact h (4 + k) (by omega)
  rw [Memory.leWord64, Memory.leWord64, hlow, hhigh]

/-- The bytes of a 32-bit word in big-endian order. -/
def beBytes (n : ℕ) : List UInt8 :=
  [UInt8.ofNat (n / 2 ^ 24), UInt8.ofNat (n / 2 ^ 16), UInt8.ofNat (n / 2 ^ 8),
    UInt8.ofNat n]

@[simp] theorem beBytes_length (n : ℕ) : (beBytes n).length = 4 := rfl

/-- The big-endian 32-bit word at an address. -/
def Memory.beWord (m : Memory UInt8) (p : ℕ) : ℕ :=
  (m p).toNat * 2 ^ 24 + (m (p + 1)).toNat * 2 ^ 16 + (m (p + 2)).toNat * 2 ^ 8 +
    (m (p + 3)).toNat

theorem Memory.Holds.beWord {m : Memory UInt8} {p n : ℕ}
    (h : Memory.Holds m p (beBytes n)) : m.beWord p = n % 2 ^ 32 := by
  have h0 : m p = UInt8.ofNat (n / 2 ^ 24) := h 0 (by simp)
  have h1 : m (p + 1) = UInt8.ofNat (n / 2 ^ 16) := h 1 (by simp)
  have h2 : m (p + 2) = UInt8.ofNat (n / 2 ^ 8) := h 2 (by simp)
  have h3 : m (p + 3) = UInt8.ofNat n := h 3 (by simp)
  unfold Memory.beWord
  rw [h0, h1, h2, h3]
  simp only [UInt8.toNat_ofNat']
  omega

end TateFirmware.Support
