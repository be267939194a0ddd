import Mathlib.Tactic.FinCases
import TateFirmware.Nand.Ecc

/-!
# Changed bits of NAND pages

What `nand_correct_data` does with a block of which one or two bits have changed, bits
of its code included.  A changed bit adds its syndrome to the difference of the code
read and the code computed: in a pair for each bit of the offset and of the place the
bit that this one has, or, for a bit of the code, that bit alone.
`nand_ecc_512.c` repairs one changed bit and finds two; `nand_ecc_256.c` takes the
halves of the offset from the wrong bytes of the difference.
-/

namespace TateFirmware.Nand

open Support

/-! ## Changed bits -/

/-- A bit of a block, or of its code, that has changed. -/
inductive Flip
  | data (k b : ℕ)
  | code (i : Fin 3) (b : ℕ)
deriving DecidableEq

namespace Flip

/-- The bit is there. -/
def InBlock (mult : ℕ) : Flip → Prop
  | data k b => k < 256 * mult ∧ b < 8
  | code _ b => b < 8

/-- The bit is not one of the two that are always set. -/
def Counts (mult : ℕ) : Flip → Prop
  | data _ _ => True
  | code i b => mult = 1 → i = 2 → 2 ≤ b

/-- The block with the changed bit. -/
def block (dat : Memory (BitVec 8)) : Flip → Memory (BitVec 8)
  | data k b => dat.store k (dat k ^^^ BitVec.twoPow 8 b)
  | code _ _ => dat

/-- A code with a single bit. -/
def unitCode (i : Fin 3) (b : ℕ) : EccCode :=
  ⟨if i = 0 then BitVec.twoPow 8 b else 0, if i = 1 then BitVec.twoPow 8 b else 0,
    if i = 2 then BitVec.twoPow 8 b else 0⟩

/-- The code with the changed bit. -/
def ecc (code : EccCode) : Flip → EccCode
  | data _ _ => code
  | .code i b => code.xor (unitCode i b)

end Flip

/-- The pairs of bits for the four low bits of a number: clear, set. -/
def spread (h : ℕ) : BitVec 8 := byteOf fun i => h.testBit (i / 2) == (i % 2 == 1)

/-- The pairs in the third byte. -/
def thirdByte (mult k b : ℕ) : BitVec 8 :=
  if mult = 1 then spread (2 * b) &&& 0xfc else spread (k / 256 + 2 * b)

/-- What a changed bit changes in the code that is read beside the code that is computed. -/
def Flip.syndrome (mult : ℕ) : Flip → EccCode
  | .data k b => ⟨spread (k / 16), spread k, thirdByte mult k b⟩
  | .code i b => unitCode i b

section Syndromes

variable {dat : Memory (BitVec 8)} {mult k b : ℕ}

theorem lineParity_flip {n : ℕ} (hk : k < n) (hb : b < 8) (j : ℕ) (v : Bool) :
    lineParity (dat.store k (dat k ^^^ BitVec.twoPow 8 b)) n j v =
      (lineParity dat n j v ^^ (k.testBit j == v)) := by
  rw [lineParity, xorWhere_store, bitParity_xor]
  cases hbit : k.testBit j == v with
  | true => simp [hk, bitParity_twoPow hb, lineParity]
  | false => simp [lineParity]

theorem columnParity_flip {n : ℕ} (hk : k < n) (mask : BitVec 8) :
    columnParity (dat.store k (dat k ^^^ BitVec.twoPow 8 b)) n mask =
      (columnParity dat n mask ^^ mask.getLsbD b) := by
  rw [columnParity, xorWhere_store, if_pos ⟨hk, rfl⟩, xor_and, bitParity_xor,
    bitParity_twoPow_and]
  rfl

theorem columnMask_getLsbD : ∀ i < 8, 2 ≤ i → ∀ b < 8,
    (columnMask i).getLsbD b = (b.testBit ((i - 2) / 2) == (i % 2 == 1)) := by
  decide

theorem thirdByte_getLsbD (hmult : mult = 1 ∨ mult = 2) (hk : k < 256 * mult) {i : ℕ}
    (hi : i < 8) :
    (thirdByte mult k b).getLsbD i =
      if i < 2 then mult != 1 && (k.testBit 8 == (i == 1))
      else b.testBit ((i - 2) / 2) == (i % 2 == 1) := by
  have hplace : ∀ j, (k / 256 + 2 * b).testBit j =
      if j < 1 then (k / 256).testBit j else b.testBit (j - 1) := by
    intro j
    rw [Nat.add_comm]
    refine Nat.testBit_two_pow_mul_add b (i := 1) ?_ j
    rcases hmult with rfl | rfl <;> omega
  have hdouble : ∀ j, (2 * b).testBit j = (decide (1 ≤ j) && b.testBit (j - 1)) := by
    intro j
    have := Nat.testBit_two_pow_mul (i := 1) (a := b) (j := j)
    simpa using this
  have hhigh : (k / 256).testBit 0 = k.testBit 8 := by
    rw [show 256 = 2 ^ 8 from rfl, Nat.testBit_div_two_pow, Nat.zero_add]
  rcases hmult with rfl | rfl
  · rw [thirdByte, if_pos rfl, spread, BitVec.getLsbD_and, getLsbD_byteOf hi, hdouble]
    interval_cases i <;> simp
  · rw [thirdByte, if_neg (by decide), spread, getLsbD_byteOf hi, hplace]
    interval_cases i <;> simp [hhigh]

theorem blockCode_flip (hmult : mult = 1 ∨ mult = 2) (hk : k < 256 * mult) (hb : b < 8) :
    blockCode ((Flip.data k b).block dat) mult =
      (blockCode dat mult).xor ((Flip.data k b).syndrome mult) := by
  ext1
  · change byteOf _ = byteOf _ ^^^ spread (k / 16)
    rw [spread, byteOf_xor]
    apply byteOf_congr
    intro i hi
    rw [Flip.block, lineParity_flip hk hb, show 16 = 2 ^ 4 from rfl, Nat.testBit_div_two_pow,
      Nat.add_comm 4, Bool.not_xor]
  · change byteOf _ = byteOf _ ^^^ spread k
    rw [spread, byteOf_xor]
    apply byteOf_congr
    intro i hi
    rw [Flip.block, lineParity_flip hk hb, Bool.not_xor]
  · change byteOf _ = byteOf _ ^^^ thirdByte mult k b
    rw [eq_byteOf fun i hi => thirdByte_getLsbD hmult hk hi, byteOf_xor]
    apply byteOf_congr
    intro i hi
    rw [Flip.block]
    split_ifs with hlow
    · rw [lineParity_flip hk hb]
      rcases hmult with rfl | rfl
      · rfl
      · simp
    · rw [columnParity_flip hk, columnMask_getLsbD i hi (Nat.not_lt.mp hlow) b hb, Bool.not_xor]

end Syndromes

/-! ## Syndromes -/

/-- The pairs of a byte that have one bit set. -/
def oddPairs (x : BitVec 8) : BitVec 8 := (x ^^^ x >>> 1) &&& 0x55

/-- The pairs that the third byte has. -/
def thirdMask (mult : ℕ) : BitVec 8 := if mult = 1 then 0x54 else 0x55

/-- The number of set bits. -/
def EccCode.weight (s : EccCode) : ℕ :=
  entryAt Ecc512.bitsperbyte s.c0 + entryAt Ecc512.bitsperbyte s.c1 +
    entryAt Ecc512.bitsperbyte s.c2

/-- Every pair has one bit set. -/
def EccCode.Single (mult : ℕ) (s : EccCode) : Prop :=
  oddPairs s.c0 = 0x55 ∧ oddPairs s.c1 = 0x55 ∧
    oddPairs s.c2 &&& thirdMask mult = thirdMask mult

instance (mult : ℕ) (s : EccCode) : Decidable (s.Single mult) :=
  inferInstanceAs (Decidable (_ ∧ _ ∧ _))

theorem spread_mod (h : ℕ) : spread (h % 16) = spread h := by
  apply byteOf_congr
  intro i hi
  rw [show 16 = 2 ^ 4 from rfl, Nat.testBit_mod_two_pow,
    decide_eq_true (show i / 2 < 4 by omega), Bool.true_and]

theorem spread_facts (h : ℕ) : oddPairs (spread h) = 0x55 ∧
    entryAt Ecc512.addressbits (spread h) = h % 16 ∧
    entryAt Ecc512.bitsperbyte (spread h) = 4 := by
  have hall : ∀ m < 16, oddPairs (spread m) = 0x55 ∧
      entryAt Ecc512.addressbits (spread m) = m ∧
      entryAt Ecc512.bitsperbyte (spread m) = 4 := by
    decide
  rw [← spread_mod]
  exact hall (h % 16) (Nat.mod_lt _ (by decide))

theorem spread_twice (h h' : ℕ) :
    entryAt Ecc512.bitsperbyte (spread h ^^^ spread h') % 2 = 0 ∧
      (spread h ^^^ spread h' = 0 → h % 16 = h' % 16) := by
  have hall : ∀ m < 16, ∀ m' < 16,
      entryAt Ecc512.bitsperbyte (spread m ^^^ spread m') % 2 = 0 ∧
        (spread m ^^^ spread m' = 0 → m = m') := by
    decide
  rw [← spread_mod h, ← spread_mod h']
  exact hall (h % 16) (Nat.mod_lt _ (by decide)) (h' % 16) (Nat.mod_lt _ (by decide))

theorem unit_facts : ∀ b < 8, entryAt Ecc512.bitsperbyte (BitVec.twoPow 8 b) = 1 ∧
    oddPairs (BitVec.twoPow 8 b) ≠ 0 ∧ oddPairs (BitVec.twoPow 8 b) &&& 0x55 ≠ 0 ∧
    (2 ≤ b → oddPairs (BitVec.twoPow 8 b) &&& 0x54 ≠ 0) := by
  decide

theorem units_weight : ∀ b < 8, ∀ b' < 8, b ≠ b' →
    entryAt Ecc512.bitsperbyte (BitVec.twoPow 8 b ^^^ BitVec.twoPow 8 b') = 2 := by
  decide

/-- The third byte for blocks of 256 bytes. -/
theorem columns_facts : ∀ b < 8, oddPairs (thirdByte 1 0 b) &&& 0x54 = 0x54 ∧
    entryAt Ecc512.addressbits (thirdByte 1 0 b >>> 2) = b := by
  decide

theorem columns_twice : ∀ b < 8, ∀ b' < 8,
    entryAt Ecc512.bitsperbyte (thirdByte 1 0 b ^^^ thirdByte 1 0 b') % 2 = 0 ∧
      (thirdByte 1 0 b ^^^ thirdByte 1 0 b' = 0 → b = b') := by
  decide

theorem oddPairs_xor (x y : BitVec 8) : oddPairs (x ^^^ y) = oddPairs x ^^^ oddPairs y := by
  rw [oddPairs, oddPairs, oddPairs, BitVec.ushiftRight_xor_distrib, ← xor_and]
  congr 1
  ac_rfl

section Bytes

variable {mult k b k' b' c : ℕ}

theorem thirdByte_two : thirdByte 2 k b = spread (k / 256 + 2 * b) := if_neg (by decide)

theorem thirdByte_odd (hmult : mult = 1 ∨ mult = 2) (hb : b < 8) :
    oddPairs (thirdByte mult k b) &&& thirdMask mult = thirdMask mult := by
  rcases hmult with rfl | rfl
  · exact (columns_facts b hb).1
  · rw [thirdByte_two, (spread_facts _).1]
    rfl

theorem thirdByte_twice (hmult : mult = 1 ∨ mult = 2) (hk : k < 256 * mult) (hb : b < 8)
    (hk' : k' < 256 * mult) (hb' : b' < 8) :
    entryAt Ecc512.bitsperbyte (thirdByte mult k b ^^^ thirdByte mult k' b') % 2 = 0 ∧
      (thirdByte mult k b ^^^ thirdByte mult k' b' = 0 → k / 256 = k' / 256 ∧ b = b') := by
  rcases hmult with rfl | rfl
  · obtain ⟨heven, heq⟩ := columns_twice b hb b' hb'
    exact ⟨heven, fun hzero => ⟨by omega, heq hzero⟩⟩
  · obtain ⟨heven, heq⟩ := spread_twice (k / 256 + 2 * b) (k' / 256 + 2 * b')
    rw [thirdByte_two, thirdByte_two]
    refine ⟨heven, fun hzero => ?_⟩
    have hplaces := heq hzero
    omega

end Bytes

/-! ## One and two changed bits -/

section Changes

variable {mult k b k' b' c : ℕ} {i j : Fin 3} {s : EccCode}

theorem EccCode.weight_pos (h : 1 ≤ s.weight) : s ≠ ⟨0, 0, 0⟩ := by
  rintro rfl
  exact absurd h (by decide)

theorem EccCode.weight_ne_one (h : 2 ≤ s.weight) : s.weight ≠ 1 ∧ s ≠ ⟨0, 0, 0⟩ :=
  ⟨(Nat.lt_of_succ_le h).ne', EccCode.weight_pos (Nat.le_of_succ_le h)⟩

theorem single_data (hmult : mult = 1 ∨ mult = 2) (hb : b < 8) :
    ((Flip.data k b).syndrome mult).Single mult ∧ (Flip.data k b).syndrome mult ≠ ⟨0, 0, 0⟩ := by
  refine ⟨⟨(spread_facts _).1, (spread_facts _).1, thirdByte_odd hmult hb⟩, fun hzero => ?_⟩
  have hbyte : spread k = 0 := congrArg EccCode.c1 hzero
  have hodd := (spread_facts k).1
  rw [hbyte] at hodd
  exact absurd hodd (by decide)

theorem unit_not_single (i : Fin 3) (b : ℕ) : ¬ (Flip.unitCode i b).Single mult := by
  intro hsingle
  by_cases h0 : i = 0
  · have h1 := hsingle.2.1
    simp [Flip.unitCode, h0, oddPairs] at h1
  · have h1 := hsingle.1
    simp [Flip.unitCode, h0, oddPairs] at h1

theorem unit_weight (i : Fin 3) (hb : b < 8) : (Flip.unitCode i b).weight = 1 := by
  have hbit := (unit_facts b hb).1
  have hzero : entryAt Ecc512.bitsperbyte 0#8 = 0 := rfl
  fin_cases i <;> simp only [EccCode.weight, Flip.unitCode] <;> simp [hbit, hzero]

theorem two_data (hmult : mult = 1 ∨ mult = 2) (h : (Flip.data k b).InBlock mult)
    (h' : (Flip.data k' b').InBlock mult) (hne : Flip.data k b ≠ Flip.data k' b') :
    let s := ((Flip.data k b).syndrome mult).xor ((Flip.data k' b').syndrome mult)
    ¬ s.Single mult ∧ s.weight ≠ 1 ∧ s ≠ ⟨0, 0, 0⟩ := by
  intro s
  have hlow := spread_twice k k'
  have hhigh := spread_twice (k / 16) (k' / 16)
  have hthird := thirdByte_twice hmult h.1 h.2 h'.1 h'.2
  refine ⟨fun hsingle => ?_, fun hweight => ?_, fun hzero => hne ?_⟩
  · have hodd : oddPairs (spread k ^^^ spread k') = 0x55 := hsingle.2.1
    rw [oddPairs_xor, (spread_facts k).1, (spread_facts k').1] at hodd
    exact absurd hodd (by decide)
  · have hsum : entryAt Ecc512.bitsperbyte (spread (k / 16) ^^^ spread (k' / 16)) +
        entryAt Ecc512.bitsperbyte (spread k ^^^ spread k') +
        entryAt Ecc512.bitsperbyte (thirdByte mult k b ^^^ thirdByte mult k' b') = 1 := hweight
    omega
  · have h0 := hhigh.2 (congrArg EccCode.c0 hzero)
    have h1 := hlow.2 (congrArg EccCode.c1 hzero)
    obtain ⟨h2, rfl⟩ := hthird.2 (congrArg EccCode.c2 hzero)
    congr 1
    omega

theorem eq_zero_of_xor {x y : BitVec 8} (h : x ^^^ y = x) : y = 0 := by
  have hcancel := congrArg (x ^^^ ·) h
  simpa [← BitVec.xor_assoc] using hcancel

theorem data_code (hmult : mult = 1 ∨ mult = 2) (hb : b < 8) (hc : c < 8)
    (hcounts : (Flip.code i c).Counts mult) :
    let s := ((Flip.data k b).syndrome mult).xor ((Flip.code i c).syndrome mult)
    ¬ s.Single mult ∧ s.weight ≠ 1 ∧ s ≠ ⟨0, 0, 0⟩ := by
  intro s
  obtain ⟨-, hodd, hmask, hcolumns⟩ := unit_facts c hc
  have hlow := spread_facts k
  have hhigh := spread_facts (k / 16)
  have hthird : oddPairs (thirdByte mult k b) &&& thirdMask mult = thirdMask mult :=
    thirdByte_odd hmult hb
  -- the pairs of the byte with the changed bit are not all odd
  have hsingle : ¬ s.Single mult := by
    rintro ⟨h0, h1, h2⟩
    fin_cases i
    · change oddPairs (spread (k / 16) ^^^ BitVec.twoPow 8 c) = 0x55 at h0
      rw [oddPairs_xor, hhigh.1] at h0
      exact hodd (eq_zero_of_xor h0)
    · change oddPairs (spread k ^^^ BitVec.twoPow 8 c) = 0x55 at h1
      rw [oddPairs_xor, hlow.1] at h1
      exact hodd (eq_zero_of_xor h1)
    · change oddPairs (thirdByte mult k b ^^^ BitVec.twoPow 8 c) &&& _ = _ at h2
      rw [oddPairs_xor, xor_and, hthird] at h2
      have hzero := eq_zero_of_xor h2
      rcases hmult with rfl | rfl
      · exact hcolumns (hcounts rfl rfl) hzero
      · exact hmask hzero
  have hweight : 2 ≤ s.weight := by
    have h0 : i ≠ 0 → s.c0 = spread (k / 16) := by
      intro hi
      simp [s, EccCode.xor, Flip.syndrome, Flip.unitCode, hi]
    have h1 : i ≠ 1 → s.c1 = spread k := by
      intro hi
      simp [s, EccCode.xor, Flip.syndrome, Flip.unitCode, hi]
    rw [EccCode.weight]
    by_cases hi : i = 0
    · rw [h1 (by simp [hi]), hlow.2.2]
      omega
    · rw [h0 hi, hhigh.2.2]
      omega
  exact ⟨hsingle, EccCode.weight_ne_one hweight⟩

theorem two_code (hb : b < 8) (hc : c < 8) (hne : Flip.code i b ≠ Flip.code j c) :
    let s := ((Flip.code i b).syndrome mult).xor ((Flip.code j c).syndrome mult)
    ¬ s.Single mult ∧ s.weight ≠ 1 ∧ s ≠ ⟨0, 0, 0⟩ := by
  intro s
  have hbit := (unit_facts b hb).1
  have hbit' := (unit_facts c hc).1
  have hzero : entryAt Ecc512.bitsperbyte 0#8 = 0 := rfl
  have hweight : s.weight = 2 := by
    by_cases hij : i = j
    · subst hij
      have hboth := units_weight b hb c hc fun hbc => hne (hbc ▸ rfl)
      simp only [s, EccCode.weight, EccCode.xor, Flip.syndrome, Flip.unitCode]
      fin_cases i <;> simp [hboth, hzero]
    · simp only [s, EccCode.weight, EccCode.xor, Flip.syndrome, Flip.unitCode]
      fin_cases i <;> fin_cases j <;> simp [hbit, hbit', hzero] at hij ⊢
  refine ⟨?_, EccCode.weight_ne_one hweight.ge⟩
  -- one of the three bytes has no changed bit
  rintro ⟨h0, h1, h2⟩
  simp only [s, EccCode.xor, Flip.syndrome, Flip.unitCode] at h0 h1 h2
  by_cases hfirst : i ≠ 0 ∧ j ≠ 0
  · simp [hfirst.1, hfirst.2, oddPairs] at h0
  · by_cases hsecond : i ≠ 1 ∧ j ≠ 1
    · simp [hsecond.1, hsecond.2, oddPairs] at h1
    · have hthird : i ≠ 2 ∧ j ≠ 2 := by omega
      simp [hthird.1, hthird.2, oddPairs, thirdMask] at h2
      split_ifs at h2 <;> exact absurd h2 (by decide)

theorem EccCode.xor_comm (x y : EccCode) : x.xor y = y.xor x := by
  ext1 <;> exact BitVec.xor_comm _ _

theorem two_changes {e f : Flip} (hmult : mult = 1 ∨ mult = 2) (he : e.InBlock mult)
    (hf : f.InBlock mult) (hce : e.Counts mult) (hcf : f.Counts mult) (hne : e ≠ f) :
    let s := (e.syndrome mult).xor (f.syndrome mult)
    ¬ s.Single mult ∧ s.weight ≠ 1 ∧ s ≠ ⟨0, 0, 0⟩ := by
  cases e with
  | data k b =>
      cases f with
      | data k' b' => exact two_data hmult he hf hne
      | code j c => exact data_code hmult he.2 hf hcf
  | code i b =>
      cases f with
      | data k' b' =>
          rw [EccCode.xor_comm]
          exact data_code hmult hf.2 he hce
      | code j c => exact two_code he hf hne

end Changes

/-! ## The difference of the two codes -/

section Compared

variable {dat : Memory (BitVec 8)} {mult : ℕ} {e f : Flip}

theorem xor_swap (x y z : BitVec 8) : x ^^^ y ^^^ z = x ^^^ z ^^^ y := by
  rw [BitVec.xor_assoc, BitVec.xor_comm y, ← BitVec.xor_assoc]

theorem EccCode.xor_self (x : EccCode) : x.xor x = ⟨0, 0, 0⟩ := by
  ext1 <;> exact BitVec.xor_self

/-- A changed bit adds its syndrome to the difference of the two codes. -/
theorem difference_flip (hmult : mult = 1 ∨ mult = 2) (he : e.InBlock mult) (r : EccCode) :
    (e.ecc r).xor (blockCode (e.block dat) mult) =
      (r.xor (blockCode dat mult)).xor (e.syndrome mult) := by
  cases e with
  | data k b =>
      rw [blockCode_flip hmult he.1 he.2]
      ext1 <;> exact (BitVec.xor_assoc _ _ _).symm
  | code i b =>
      ext1 <;> exact xor_swap _ _ _

theorem difference_one (dat : Memory (BitVec 8)) (hmult : mult = 1 ∨ mult = 2)
    (he : e.InBlock mult) :
    (e.ecc (blockCode dat mult)).xor (blockCode (e.block dat) mult) = e.syndrome mult := by
  rw [difference_flip hmult he, EccCode.xor_self]
  ext1 <;> exact BitVec.zero_xor

theorem difference_two (hmult : mult = 1 ∨ mult = 2) (he : e.InBlock mult)
    (hf : f.InBlock mult) :
    (f.ecc (e.ecc (blockCode dat mult))).xor (blockCode (f.block (e.block dat)) mult) =
      (e.syndrome mult).xor (f.syndrome mult) := by
  rw [difference_flip hmult hf, difference_one dat hmult he]

theorem or_eq_zero_iff (s : EccCode) : s.c1 ||| s.c0 ||| s.c2 = 0#8 ↔ s = ⟨0, 0, 0⟩ := by
  constructor
  · intro hzero
    rw [BitVec.or_eq_zero_iff, BitVec.or_eq_zero_iff] at hzero
    ext1
    · exact hzero.1.2
    · exact hzero.1.1
    · exact hzero.2
  · rintro rfl
    rfl

/-- The block with the bit changed back. -/
theorem store_twice (k b : ℕ) :
    ((Flip.data k b).block dat).store k
      ((Flip.data k b).block dat k ^^^ BitVec.twoPow 8 b) = dat := by
  rw [Flip.block, Memory.store_same, Memory.store_store, BitVec.xor_assoc, BitVec.xor_self,
    BitVec.xor_zero, Memory.store_self]

end Compared

/-! ## Correction in `nand_ecc_512.c` -/

namespace Ecc512

variable {dat buf : Memory (BitVec 8)} {mult : ℕ} {e f : Flip}

/-- The offset that the difference of two codes names. -/
def byteAddr (mult : ℕ) (s : EccCode) : ℕ :=
  if mult = 1 then entryAt addressbits s.c0 <<< 4 + entryAt addressbits s.c1
  else entryAt addressbits (s.c2 &&& 0x3) <<< 8 + entryAt addressbits s.c0 <<< 4 +
    entryAt addressbits s.c1

/-- `nand_correct_data` for a difference `s` of the two codes. -/
def correctBy (mult : ℕ) (buf : Memory (BitVec 8)) (s : EccCode) : ℤ × Memory (BitVec 8) :=
  if s = ⟨0, 0, 0⟩ then (0, buf)
  else if s.Single mult then
    (1, buf.store (byteAddr mult s)
      (buf (byteAddr mult s) ^^^ BitVec.twoPow 8 (entryAt addressbits (s.c2 >>> 2))))
  else if s.weight = 1 then (1, buf)
  else (-1, buf)

theorem nandCorrectData_eq (hmult : mult = 1 ∨ mult = 2) (readEcc calcEcc : EccCode) :
    nandCorrectData mult buf readEcc calcEcc = correctBy mult buf (readEcc.xor calcEcc) := by
  obtain ⟨s, hs⟩ : ∃ s, s = readEcc.xor calcEcc := ⟨_, rfl⟩
  have hthird : oddPairs s.c2 &&& thirdMask mult = thirdMask mult ↔
      (mult = 1 ∧ (s.c2 ^^^ s.c2 >>> 1) &&& 0x54 = 0x54 ∨
        mult = 2 ∧ (s.c2 ^^^ s.c2 >>> 1) &&& 0x55 = 0x55) := by
    rcases hmult with rfl | rfl
    · simp [oddPairs, thirdMask, BitVec.and_assoc]
    · simp [oddPairs, thirdMask, BitVec.and_assoc]
  have hsingle : s.Single mult ↔ (s.c1 ^^^ s.c1 >>> 1) &&& 0x55 = 0x55 ∧
      (s.c0 ^^^ s.c0 >>> 1) &&& 0x55 = 0x55 ∧
        (mult = 1 ∧ (s.c2 ^^^ s.c2 >>> 1) &&& 0x54 = 0x54 ∨
          mult = 2 ∧ (s.c2 ^^^ s.c2 >>> 1) &&& 0x55 = 0x55) := by
    rw [← hthird]
    exact and_left_comm
  have hweight : s.weight = 1 ↔ entryAt bitsperbyte s.c1 + entryAt bitsperbyte s.c0 +
      entryAt bitsperbyte s.c2 = 1 := by
    rw [EccCode.weight, Nat.add_comm (entryAt bitsperbyte s.c0)]
  rw [← hs, correctBy, if_congr (or_eq_zero_iff s).symm rfl rfl, if_congr hsingle rfl rfl,
    if_congr hweight rfl rfl, hs]
  rfl

theorem addressbits_third : ∀ h < 16, entryAt addressbits (spread h &&& 0x3) = h % 2 ∧
    entryAt addressbits (spread h >>> 2) = h / 2 := by
  decide

/-- The syndrome of a bit of the block names it. -/
theorem names_data (hmult : mult = 1 ∨ mult = 2) {k b : ℕ}
    (h : (Flip.data k b).InBlock mult) :
    byteAddr mult ((Flip.data k b).syndrome mult) = k ∧
      entryAt addressbits (((Flip.data k b).syndrome mult).c2 >>> 2) = b := by
  obtain ⟨hk, hb⟩ := h
  have hlow := (spread_facts k).2.1
  have hhigh := (spread_facts (k / 16)).2.1
  rcases hmult with rfl | rfl
  · refine ⟨?_, (columns_facts b hb).2⟩
    simp only [byteAddr, Flip.syndrome, if_true, hlow, hhigh, Nat.shiftLeft_eq]
    omega
  · obtain ⟨hblock, hplace⟩ := addressbits_third (k / 256 + 2 * b) (by omega)
    refine ⟨?_, ?_⟩
    · simp only [byteAddr, Flip.syndrome, thirdByte_two, hblock, hlow, hhigh, Nat.shiftLeft_eq]
      rw [if_neg (by decide)]
      omega
    · simp only [Flip.syndrome, thirdByte_two, hplace]
      omega

/-- A changed bit of the block or of the code is repaired, and two of them are found. -/
theorem nandCorrectData_secded (hmult : mult = 1 ∨ mult = 2) (dat : Memory (BitVec 8)) :
    nandCorrectData mult dat (nandCalculateEcc mult dat) (nandCalculateEcc mult dat) = (0, dat) ∧
    (∀ e : Flip, e.InBlock mult →
      nandCorrectData mult (e.block dat) (e.ecc (nandCalculateEcc mult dat))
        (nandCalculateEcc mult (e.block dat)) = (1, dat)) ∧
    ∀ e f : Flip, e.InBlock mult → f.InBlock mult → e.Counts mult → f.Counts mult → e ≠ f →
      nandCorrectData mult (f.block (e.block dat)) (f.ecc (e.ecc (nandCalculateEcc mult dat)))
        (nandCalculateEcc mult (f.block (e.block dat))) = (-1, f.block (e.block dat)) := by
  simp only [nandCalculateEcc_eq hmult]
  refine ⟨?_, fun e he => ?_, fun e f he hf hce hcf hne => ?_⟩
  · rw [nandCorrectData_eq hmult, EccCode.xor_self, correctBy, if_pos rfl]
  · rw [nandCorrectData_eq hmult, difference_one dat hmult he]
    cases e with
    | data k b =>
        obtain ⟨hsingle, hne⟩ := single_data (k := k) hmult he.2
        obtain ⟨hbyte, hbit⟩ := names_data hmult he
        rw [correctBy, if_neg hne, if_pos hsingle, hbyte, hbit, store_twice]
    | code i b =>
        have hweight := unit_weight i he
        have hne := EccCode.weight_pos hweight.ge
        change correctBy mult dat (Flip.unitCode i b) = (1, dat)
        rw [correctBy, if_neg hne, if_neg (unit_not_single i b), if_pos hweight]
  · obtain ⟨hsingle, hweight, hzero⟩ := two_changes hmult he hf hce hcf hne
    rw [nandCorrectData_eq hmult, difference_two hmult he hf, correctBy, if_neg hzero,
      if_neg hsingle, if_neg hweight]

/-- The last bit of a block of 512 bytes. -/
theorem nandCorrectData_secded_last :
    nandCorrectData 2 ((Flip.data 511 7).block fun _ => 0)
      (nandCalculateEcc 2 fun _ => 0)
      (nandCalculateEcc 2 ((Flip.data 511 7).block fun _ => 0)) = (1, fun _ => 0) :=
  (nandCorrectData_secded (.inr rfl) fun _ => 0).2.1 (.data 511 7) ⟨by decide, by decide⟩

end Ecc512

/-! ## Correction in `nand_ecc_256.c` -/

namespace Ecc256

variable {dat : Memory (BitVec 8)}

theorem countbitsLoop_zero (n : ℕ) : countbitsLoop n 0 = 0 := by
  cases n <;> rfl

theorem countbitsLoop_add (n m : ℕ) {x : ℕ} (hx : x < 2 ^ m) (y : ℕ) :
    countbitsLoop (m + n) (x + 2 ^ m * y) = countbitsLoop m x + countbitsLoop n y := by
  induction m generalizing x with
  | zero =>
      obtain rfl : x = 0 := by omega
      simp [countbitsLoop]
  | succ m ih =>
      have hhalf : (x + 2 ^ (m + 1) * y) / 2 = x / 2 + 2 ^ m * y := by
        rw [Nat.pow_succ', Nat.mul_assoc, Nat.add_mul_div_left _ _ (by decide)]
      have hlow : (x + 2 ^ (m + 1) * y) % 2 = x % 2 := by
        rw [Nat.pow_succ', Nat.mul_assoc, Nat.add_mul_mod_self_left]
      have hnext := ih (x := x / 2) (by rw [Nat.pow_succ] at hx; omega)
      rw [Nat.add_right_comm, countbitsLoop, countbitsLoop, hhalf, hlow, hnext]
      by_cases hboth : x + 2 ^ (m + 1) * y = 0
      · have hx0 : x = 0 := by omega
        have hy : 2 ^ (m + 1) * y = 0 := by omega
        have hy0 : y = 0 := (Nat.mul_eq_zero.mp hy).resolve_left (by positivity)
        rw [if_pos hboth, if_pos hx0, hy0, countbitsLoop_zero]
      · rw [if_neg hboth]
        split_ifs with hx0
        · rw [hx0, Nat.zero_mod, Nat.zero_div, countbitsLoop_zero]
          omega
        · omega

theorem bitsperbyte_eq (x : BitVec 8) :
    entryAt Ecc512.bitsperbyte x = countbitsLoop 8 x.toNat := by
  have hall : ∀ m < 256, entryAt Ecc512.bitsperbyte (BitVec.ofNat 8 m) = countbitsLoop 8 m := by
    decide +kernel
  simpa using hall x.toNat x.isLt

/-- `countbits` of the three bytes counts as the table does. -/
theorem countbits_eq (s : EccCode) :
    countbits (s.c0.toNat ||| s.c1.toNat <<< 8 ||| s.c2.toNat <<< 16) = s.weight := by
  have h0 := s.c0.isLt
  have h1 := s.c1.isLt
  have h2 := s.c2.isLt
  have hword : s.c0.toNat ||| s.c1.toNat <<< 8 ||| s.c2.toNat <<< 16 =
      s.c0.toNat + 2 ^ 8 * (s.c1.toNat + 2 ^ 8 * (s.c2.toNat + 2 ^ 8 * 0)) := by
    rw [Nat.or_comm s.c0.toNat, ← Nat.shiftLeft_add_eq_or_of_lt h0, Nat.or_comm,
      ← Nat.shiftLeft_add_eq_or_of_lt]
    · simp only [Nat.shiftLeft_eq]
      omega
    · simp only [Nat.shiftLeft_eq]
      omega
  rw [countbits, hword, countbitsLoop_add 24 8 h0, countbitsLoop_add 16 8 h1,
    countbitsLoop_add 8 8 h2, countbitsLoop_zero, EccCode.weight, bitsperbyte_eq,
    bitsperbyte_eq, bitsperbyte_eq]
  omega

/-- `byteoffs`. -/
def byteoffs (s : EccCode) : ℕ :=
  ((s.c1 <<< 0) &&& 0x80 ||| (s.c1 <<< 1) &&& 0x40 |||
    (s.c1 <<< 2) &&& 0x20 ||| (s.c1 <<< 3) &&& 0x10 |||
    (s.c0 >>> 4) &&& 0x08 ||| (s.c0 >>> 3) &&& 0x04 |||
    (s.c0 >>> 2) &&& 0x02 ||| (s.c0 >>> 1) &&& 0x01).toNat

/-- `bitnum`. -/
def bitnum (s : EccCode) : ℕ :=
  ((s.c2 >>> 5) &&& 0x04 ||| (s.c2 >>> 4) &&& 0x02 ||| (s.c2 >>> 3) &&& 0x01).toNat

/-- `nand_correct_data` for a difference `s` of the two codes. -/
def correctBy (dat : Memory (BitVec 8)) (s : EccCode) : ℤ × Memory (BitVec 8) :=
  if s = ⟨0, 0, 0⟩ then (0, dat)
  else if s.Single 1 then
    (1, dat.store (byteoffs s) (dat (byteoffs s) ^^^ BitVec.twoPow 8 (bitnum s)))
  else if s.weight = 1 then (1, dat)
  else (-1, dat)

theorem nandCorrectData_eq (readEcc calcEcc : EccCode) :
    nandCorrectData dat readEcc calcEcc = correctBy dat (readEcc.xor calcEcc) := by
  obtain ⟨s, hs⟩ : ∃ s, s = calcEcc.xor readEcc := ⟨_, rfl⟩
  have hsingle : s.Single 1 ↔ (s.c0 ^^^ s.c0 >>> 1) &&& 0x55 = 0x55 ∧
      (s.c1 ^^^ s.c1 >>> 1) &&& 0x55 = 0x55 ∧ (s.c2 ^^^ s.c2 >>> 1) &&& 0x54 = 0x54 := by
    simp [EccCode.Single, oddPairs, thirdMask, BitVec.and_assoc]
  have hzero : s.c0 ||| s.c1 ||| s.c2 = 0#8 ↔ s = ⟨0, 0, 0⟩ := by
    rw [← or_eq_zero_iff, BitVec.or_comm s.c0]
  rw [EccCode.xor_comm readEcc, ← hs, correctBy, if_congr hzero.symm rfl rfl,
    if_congr hsingle rfl rfl, ← countbits_eq, hs]
  rfl

theorem byteoffs_spread : ∀ h < 16, ∀ h' < 16,
    byteoffs ⟨spread h, spread h', 0⟩ = 16 * h' + h := by
  decide

theorem bitnum_columns : ∀ b < 8, bitnum ⟨0, 0, thirdByte 1 0 b⟩ = b := by
  decide

/-- The offset that a changed bit names has the halves of its own exchanged. -/
theorem names_data {k b : ℕ} (h : (Flip.data k b).InBlock 1) :
    byteoffs ((Flip.data k b).syndrome 1) = 16 * (k % 16) + k / 16 ∧
      bitnum ((Flip.data k b).syndrome 1) = b := by
  obtain ⟨hk, hb⟩ := h
  refine ⟨?_, bitnum_columns b hb⟩
  have hspread := byteoffs_spread (k / 16) (by omega) (k % 16) (by omega)
  rw [spread_mod] at hspread
  exact hspread

theorem twoPow_ne_zero {b : ℕ} (hb : b < 8) : BitVec.twoPow 8 b ≠ 0#8 := by
  intro hzero
  have hparity := bitParity_twoPow hb
  rw [hzero, bitParity_zero] at hparity
  exact Bool.false_ne_true hparity

/-- Where the exchanged offset is another one, the changed byte stays as it is. -/
theorem store_other_ne {k k' b : ℕ} (hb : b < 8) (hne : k ≠ k') (x : BitVec 8) :
    ((Flip.data k b).block dat).store k' x ≠ dat := by
  intro hsame
  have hcell := congrFun hsame k
  rw [Memory.store_of_ne _ hne, Flip.block, Memory.store_same] at hcell
  exact twoPow_ne_zero hb (eq_zero_of_xor hcell)

theorem correctBy_data {k b : ℕ} (h : (Flip.data k b).InBlock 1) :
    let bad := (Flip.data k b).block dat
    correctBy bad ((Flip.data k b).syndrome 1) =
      (1, bad.store (16 * (k % 16) + k / 16)
        (bad (16 * (k % 16) + k / 16) ^^^ BitVec.twoPow 8 b)) := by
  intro bad
  obtain ⟨hsingle, hne⟩ := single_data (k := k) (.inl rfl) h.2
  obtain ⟨hbyte, hbit⟩ := names_data h
  rw [correctBy, if_neg hne, if_pos hsingle, hbyte, hbit]

/-- `nand_correct_data` exchanges the halves of the offset: it says that it has repaired a
changed bit of the block, and has where the halves are equal. -/
theorem nandCorrectData_exchanged (dat : Memory (BitVec 8)) :
    (∀ k < 256, ∀ b < 8,
      let bad := (Flip.data k b).block dat
      let r := nandCorrectData bad (nandCalculateEcc dat) (nandCalculateEcc bad)
      r.1 = 1 ∧ (r.2 = dat ↔ k / 16 = k % 16)) ∧
    (∀ i : Fin 3, ∀ b < 8,
      nandCorrectData dat ((Flip.code i b).ecc (nandCalculateEcc dat)) (nandCalculateEcc dat) =
        (1, dat)) ∧
    ∀ e f : Flip, e.InBlock 1 → f.InBlock 1 → e.Counts 1 → f.Counts 1 → e ≠ f →
      nandCorrectData (f.block (e.block dat)) (f.ecc (e.ecc (nandCalculateEcc dat)))
        (nandCalculateEcc (f.block (e.block dat))) = (-1, f.block (e.block dat)) := by
  simp only [nandCalculateEcc_eq, nandCorrectData_eq]
  refine ⟨fun k hk b hb => ?_, fun i b hb => ?_, fun e f he hf hce hcf hne => ?_⟩
  · have hin : (Flip.data k b).InBlock 1 := ⟨hk, hb⟩
    have hdifference := difference_one dat (.inl rfl) hin
    rw [Flip.ecc] at hdifference
    rw [hdifference, correctBy_data hin]
    refine ⟨rfl, ?_⟩
    by_cases hhalves : k / 16 = k % 16
    · have hsame : 16 * (k % 16) + k / 16 = k := by omega
      rw [hsame]
      exact iff_of_true (store_twice k b) hhalves
    · have hother : k ≠ 16 * (k % 16) + k / 16 := by omega
      exact iff_of_false (store_other_ne hb hother _) hhalves
  · have hdifference := difference_one dat (e := .code i b) (.inl rfl) hb
    change correctBy dat (((Flip.code i b).ecc (blockCode dat 1)).xor
      (blockCode ((Flip.code i b).block dat) 1)) = (1, dat)
    have hweight := unit_weight i hb
    rw [hdifference]
    change correctBy dat (Flip.unitCode i b) = (1, dat)
    rw [correctBy, if_neg (EccCode.weight_pos hweight.ge), if_neg (unit_not_single i b),
      if_pos hweight]
  · obtain ⟨hsingle, hweight, hzero⟩ := two_changes (.inl rfl) he hf hce hcf hne
    rw [difference_two (.inl rfl) he hf, correctBy, if_neg hzero, if_neg hsingle,
      if_neg hweight]

/-- A changed bit of the byte 1 is put right in the byte 16. -/
theorem nandCorrectData_exchanged_one :
    ¬ (nandCorrectData ((Flip.data 1 0).block fun _ => 0) (nandCalculateEcc fun _ => 0)
      (nandCalculateEcc ((Flip.data 1 0).block fun _ => 0))).2 = fun _ => 0 :=
  fun hsame => absurd
    (((nandCorrectData_exchanged fun _ => 0).1 1 (by decide) 0 (by decide)).2.mp hsame)
    (by decide)

end Ecc256

end TateFirmware.Nand
