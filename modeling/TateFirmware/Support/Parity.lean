import Mathlib.Data.BitVec
import TateFirmware.Support.Memory

/-!
# Parities of a block

A parity code adds up the cells of a block without carry.  `xorWhere p dat n` is the
sum of those of the first `n` cells whose index satisfies `p`; it is additive in `p`,
and a cell that changes by `e` changes the sums it takes part in by `e`.
-/

namespace TateFirmware.Support

section Sums

variable {w : ℕ} {p q : ℕ → Bool} {dat : Memory (BitVec w)} {n : ℕ}

/-- The sum of the cells below `n` whose index satisfies `p`. -/
def xorWhere (p : ℕ → Bool) (dat : Memory (BitVec w)) : ℕ → BitVec w
  | 0 => 0#w
  | n + 1 => xorWhere p dat n ^^^ if p n then dat n else 0#w

theorem xorWhere_succ :
    xorWhere p dat (n + 1) = xorWhere p dat n ^^^ if p n then dat n else 0#w := rfl

theorem xorWhere_congr (h : ∀ i < n, p i = q i) :
    xorWhere p dat n = xorWhere q dat n := by
  induction n with
  | zero => rfl
  | succ n ih =>
      rw [xorWhere_succ, xorWhere_succ, h n n.lt_succ_self,
        ih fun i hi => h i (Nat.lt_succ_of_lt hi)]

/-- The indices that satisfy exactly one of two conditions. -/
theorem xorWhere_bne :
    xorWhere (fun i => p i ^^ q i) dat n = xorWhere p dat n ^^^ xorWhere q dat n := by
  induction n with
  | zero => simp [xorWhere]
  | succ n ih =>
      rw [xorWhere_succ, xorWhere_succ, xorWhere_succ, ih]
      have hterm : (if (p n ^^ q n) then dat n else 0#w) =
          (if p n then dat n else 0#w) ^^^ if q n then dat n else 0#w := by
        cases p n <;> cases q n <;> simp
      rw [hterm]
      ac_rfl

theorem xorWhere_not :
    xorWhere (fun i => !p i) dat n =
      xorWhere (fun _ => true) dat n ^^^ xorWhere p dat n := by
  rw [← xorWhere_bne]
  exact xorWhere_congr fun i _ => (Bool.true_xor (p i)).symm

theorem xorWhere_add (m : ℕ) :
    xorWhere p dat (n + m) =
      xorWhere p dat n ^^^ xorWhere (fun i => p (n + i)) (dat.shift n) m := by
  induction m with
  | zero => exact (BitVec.xor_zero (x := xorWhere p dat n)).symm
  | succ m ih =>
      rw [← Nat.add_assoc, xorWhere_succ, ih, xorWhere_succ, Memory.shift_apply,
        BitVec.xor_assoc]

theorem xorWhere_false (n : ℕ) : xorWhere (fun _ => false) dat n = 0#w := by
  induction n with
  | zero => rfl
  | succ n ih => simp [xorWhere_succ, ih]

/-- The cells of four interleaved memories. -/
theorem xorWhere_four (m : ℕ) :
    xorWhere p dat (4 * m) =
      xorWhere (fun j => p (4 * j)) (fun j => dat (4 * j)) m ^^^
      xorWhere (fun j => p (4 * j + 1)) (fun j => dat (4 * j + 1)) m ^^^
      xorWhere (fun j => p (4 * j + 2)) (fun j => dat (4 * j + 2)) m ^^^
      xorWhere (fun j => p (4 * j + 3)) (fun j => dat (4 * j + 3)) m := by
  induction m with
  | zero => simp [xorWhere]
  | succ m ih =>
      rw [Nat.mul_succ]
      simp only [xorWhere_succ, ih]
      ac_rfl

/-- One cell changed by `e`. -/
theorem xorWhere_store (k : ℕ) (e : BitVec w) :
    xorWhere p (dat.store k (dat k ^^^ e)) n =
      xorWhere p dat n ^^^ if k < n ∧ p k then e else 0#w := by
  induction n with
  | zero => simp [xorWhere]
  | succ n ih =>
      rw [xorWhere_succ, xorWhere_succ, ih]
      rcases eq_or_ne n k with rfl | hne
      · rw [Memory.store_same, if_neg (fun h => lt_irrefl n h.1)]
        cases p n with
        | false => simp
        | true =>
            simp only [Nat.lt_succ_self, and_self, if_true]
            ac_rfl
      · rw [Memory.store_of_ne _ hne]
        have hlt : (k < n + 1 ∧ p k = true) ↔ (k < n ∧ p k = true) := by
          have : k < n + 1 ↔ k < n := by omega
          rw [this]
        rw [if_congr hlt rfl rfl]
        ac_rfl

/-- An additive map of the sum is the sum of the mapped cells. -/
theorem map_xorWhere {v : ℕ} {f : BitVec w → BitVec v} (hzero : f (0#w) = 0#v)
    (hadd : ∀ x y, f (x ^^^ y) = f x ^^^ f y) :
    f (xorWhere p dat n) = xorWhere p (fun i => f (dat i)) n := by
  induction n with
  | zero => exact hzero
  | succ n ih =>
      rw [xorWhere_succ, xorWhere_succ, hadd, ih, apply_ite f, hzero]

end Sums

/-! ## The parity of a word -/

section Words

variable {w : ℕ} {x y : BitVec w}

/-- Whether an odd number of the low `n` bits are set. -/
def lowParity (x : BitVec w) : ℕ → Bool
  | 0 => false
  | n + 1 => lowParity x n ^^ x.getLsbD n

/-- Whether an odd number of the bits are set. -/
def bitParity (x : BitVec w) : Bool := lowParity x w

theorem lowParity_succ (n : ℕ) : lowParity x (n + 1) = (lowParity x n ^^ x.getLsbD n) := rfl

theorem lowParity_xor (n : ℕ) :
    lowParity (x ^^^ y) n = (lowParity x n ^^ lowParity y n) := by
  induction n with
  | zero => rfl
  | succ n ih =>
      rw [lowParity_succ, lowParity_succ, lowParity_succ, ih, BitVec.getLsbD_xor,
        Bool.xor_assoc, Bool.xor_assoc, Bool.xor_left_comm (lowParity y n)]

theorem lowParity_zero (n : ℕ) : lowParity (0#w) n = false := by
  induction n with
  | zero => rfl
  | succ n ih => simp [lowParity_succ, ih]

@[simp] theorem bitParity_xor : bitParity (x ^^^ y) = (bitParity x ^^ bitParity y) :=
  lowParity_xor w

@[simp] theorem bitParity_zero : bitParity (0#w) = false := lowParity_zero w

theorem lowParity_twoPow_and (mask : BitVec w) (b n : ℕ) :
    lowParity (BitVec.twoPow w b &&& mask) n = (decide (b < n) && mask.getLsbD b) := by
  induction n with
  | zero => simp [lowParity]
  | succ n ih =>
      rw [lowParity_succ, ih, BitVec.getLsbD_and, BitVec.getLsbD_twoPow]
      rcases lt_trichotomy b n with hlt | rfl | hgt
      · simp [hlt, hlt.ne, Nat.lt_succ_of_lt hlt]
      · cases hbit : mask.getLsbD b with
        | false => simp
        | true => simp [BitVec.lt_of_getLsbD hbit]
      · simp [hgt.ne', Nat.not_lt.mpr hgt.le, Nat.not_lt.mpr (Nat.succ_le_of_lt hgt)]

/-- Of a single bit, the parity under a mask tells whether the mask has it. -/
theorem bitParity_twoPow_and (mask : BitVec w) (b : ℕ) :
    bitParity (BitVec.twoPow w b &&& mask) = mask.getLsbD b := by
  rw [bitParity, lowParity_twoPow_and]
  cases hbit : mask.getLsbD b with
  | false => exact Bool.and_false _
  | true => simpa using BitVec.lt_of_getLsbD hbit

theorem bitParity_twoPow {b : ℕ} (hb : b < w) : bitParity (BitVec.twoPow w b) = true := by
  have h := bitParity_twoPow_and (BitVec.allOnes w) b
  rwa [BitVec.and_allOnes, BitVec.getLsbD_allOnes, decide_eq_true hb] at h

end Words

/-! ## A byte by its bits -/

section Bytes

variable {f g : ℕ → Bool}

/-- The byte with the bits `f 0`, …, `f 7`. -/
def byteOf (f : ℕ → Bool) : BitVec 8 :=
  (BitVec.ofBoolListLE ((List.range 8).map f)).cast (by simp)

theorem getLsbD_byteOf {i : ℕ} (hi : i < 8) : (byteOf f).getLsbD i = f i := by
  rw [byteOf, BitVec.getLsbD_cast, BitVec.getLsbD_ofBoolListLE, List.getD_eq_getElem?_getD,
    List.getElem?_map, List.getElem?_range hi]
  rfl

@[simp] theorem getElem_byteOf {i : ℕ} (hi : i < 8) : (byteOf f)[i] = f i := by
  rw [← BitVec.getLsbD_eq_getElem, getLsbD_byteOf hi]

theorem eq_byteOf {x : BitVec 8} (h : ∀ i < 8, x.getLsbD i = f i) : x = byteOf f := by
  apply BitVec.eq_of_getLsbD_eq
  intro i hi
  rw [getLsbD_byteOf hi, h i hi]

theorem byteOf_congr (h : ∀ i < 8, f i = g i) : byteOf f = byteOf g := by
  apply eq_byteOf
  intro i hi
  rw [getLsbD_byteOf hi, h i hi]

theorem byteOf_xor : byteOf f ^^^ byteOf g = byteOf fun i => f i ^^ g i := by
  apply eq_byteOf
  intro i hi
  rw [BitVec.getLsbD_xor, getLsbD_byteOf hi, getLsbD_byteOf hi]

end Bytes

end TateFirmware.Support
