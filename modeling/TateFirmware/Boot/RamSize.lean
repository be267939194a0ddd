import Mathlib.Algebra.Order.Ring.Nat
import Mathlib.Tactic.Ring
import TateFirmware.Support.Memory

/-!
# Finding the size of the memory

`get_ram_size` of `common/memsize.c` saves and overwrites the words at the powers of two
below `maxsize`, from the largest one down, and then the first word.  From the smallest
one up it looks where a word has lost what was written to it, and restores the words on
the way.

A restored probe is the state before the probe, except that the first word is still
overwritten.  That ends with the first probe that reached the same word; where the
memory is as large as `maxsize` there is none.
-/

namespace TateFirmware.Boot

open Support

/-! ## The source -/

/-- `sizeof (long)`. -/
def sizeofLong : ℕ := 4

/-- The memory, and the stack `save[0]`, …, `save[i - 1]` with its top first. -/
structure RamTest where
  mem : Memory UInt32
  save : List UInt32

section

variable (words : ℕ)

/-- `*(base + cnt)`, in a memory whose addresses repeat after so many words. -/
def ramRead (mem : Memory UInt32) (cnt : ℕ) : UInt32 := mem (cnt % words)

def ramWrite (mem : Memory UInt32) (cnt : ℕ) (val : UInt32) : Memory UInt32 :=
  mem.store (cnt % words) val

/-- One round of the first loop. -/
def RamTest.probe (s : RamTest) (cnt : ℕ) : RamTest where
  mem := ramWrite words s.mem cnt (~~~ UInt32.ofNat cnt)
  save := ramRead words s.mem cnt :: s.save

/-- `*addr = save[--i]`. -/
def RamTest.restore (s : RamTest) (cnt : ℕ) : RamTest where
  mem := ramWrite words s.mem cnt (s.save.headD 0)
  save := s.save.tail

/-- The first loop, from `cnt` down. -/
def probeDown (s : RamTest) (cnt : ℕ) : RamTest :=
  if 0 < cnt then probeDown (s.probe words cnt) (cnt / 2) else s

/-- The loops that restore the words from `cnt` up. -/
def restoreUp (limit : ℕ) (s : RamTest) (cnt : ℕ) : RamTest :=
  if 0 < cnt ∧ cnt < limit then restoreUp limit (s.restore words cnt) (cnt * 2) else s
termination_by limit - cnt

/-- The last loop of `get_ram_size`, from `cnt` up: the size, and the memory. -/
def sizeUp (maxsize : ℕ) (s : RamTest) (cnt : ℕ) : ℕ × Memory UInt32 :=
  if 0 < cnt ∧ cnt < maxsize / sizeofLong then
    let val := ramRead words s.mem cnt
    let s := s.restore words cnt
    if val ≠ ~~~ UInt32.ofNat cnt then
      (cnt * sizeofLong, (restoreUp words (maxsize / sizeofLong) s (cnt * 2)).mem)
    else sizeUp maxsize s (cnt * 2)
  else (maxsize, s.mem)
termination_by maxsize / sizeofLong - cnt

/-- `get_ram_size`: what it returns, and the memory afterwards. -/
def getRamSize (mem : Memory UInt32) (maxsize : ℕ) : ℕ × Memory UInt32 :=
  let s := probeDown words ⟨mem, []⟩ (maxsize / sizeofLong / 2)
  let first := ramRead words s.mem 0
  let mem := ramWrite words s.mem 0 0
  if ramRead words mem 0 ≠ 0 then
    let s := ⟨ramWrite words mem 0 first, s.save⟩
    (0, (restoreUp words (maxsize / sizeofLong) s 1).mem)
  else sizeUp words maxsize ⟨mem, s.save⟩ 1

/-- The size is found, and the memory is left as it was. -/
def SizesRam (mem : Memory UInt32) (maxsize : ℕ) : Prop :=
  (getRamSize words mem maxsize).1 = words * sizeofLong ∧
    ∀ k < words, (getRamSize words mem maxsize).2 k = mem k

end

/-! ## One probe -/

variable {words : ℕ}

/-- The state with another value in the first word. -/
def RamTest.dirty (s : RamTest) (val : UInt32) : RamTest where
  mem := s.mem.store 0 val
  save := s.save

theorem restore_probe (s : RamTest) (cnt : ℕ) :
    (s.probe words cnt).restore words cnt = s := by
  rw [RamTest.restore, RamTest.probe]
  simp only [ramWrite, ramRead, List.headD_cons, List.tail_cons, Memory.store_store, Memory.store_self]

/-- A probe of another word than the first one. -/
theorem restore_dirty_probe {cnt : ℕ} (hcnt : cnt % words ≠ 0) (s : RamTest)
    (val : UInt32) :
    ((s.probe words cnt).dirty val).restore words cnt = s.dirty val := by
  rw [RamTest.restore, RamTest.probe, RamTest.dirty, RamTest.dirty]
  simp only [ramWrite, ramRead, List.headD_cons, List.tail_cons]
  rw [Memory.store_comm _ hcnt.symm, Memory.store_store, Memory.store_self]

/-- A probe of the first word. -/
theorem restore_dirty_alias {cnt : ℕ} (hcnt : cnt % words = 0) (s : RamTest)
    (val : UInt32) :
    ((s.probe words cnt).dirty val).restore words cnt = s := by
  rw [RamTest.restore, RamTest.probe, RamTest.dirty]
  simp only [ramWrite, ramRead, List.headD_cons, List.tail_cons, hcnt, Memory.store_store,
    Memory.store_self]

theorem read_dirty_probe {cnt : ℕ} (hcnt : cnt % words ≠ 0) (s : RamTest)
    (val : UInt32) :
    ramRead words ((s.probe words cnt).dirty val).mem cnt = ~~~ UInt32.ofNat cnt := by
  simp only [ramRead, RamTest.dirty, RamTest.probe, ramWrite]
  rw [Memory.store_of_ne _ hcnt, Memory.store_same]

/-! ## The loops -/

/-- The state when the words at `2 ^ (j + m - 1)`, …, `2 ^ j` have been probed. -/
def probed (words : ℕ) (s : RamTest) (j : ℕ) : ℕ → RamTest
  | 0 => s
  | m + 1 => (probed words s (j + 1) m).probe words (2 ^ j)

theorem probeDown_probed (s : RamTest) (j m : ℕ) :
    probeDown words (probed words s j m) (2 ^ j / 2) = probed words s 0 (j + m) := by
  induction j generalizing m with
  | zero => rw [probeDown, if_neg (by decide), Nat.zero_add]
  | succ j ih =>
      have hhalf : 2 ^ (j + 1) / 2 = 2 ^ j := by omega
      rw [hhalf, probeDown, if_pos (Nat.two_pow_pos j)]
      have hnext := ih (m + 1)
      rw [Nat.add_assoc, Nat.add_comm 1 m]
      exact hnext

theorem restoreUp_probed (s : RamTest) (j m : ℕ) :
    restoreUp words (2 ^ (j + m)) (probed words s j m) (2 ^ j) = s := by
  induction m generalizing j with
  | zero => rw [restoreUp, if_neg fun h => lt_irrefl _ h.2, probed]
  | succ m ih =>
      have hlt : 2 ^ j < 2 ^ (j + (m + 1)) :=
        Nat.pow_lt_pow_right (by decide) (by omega)
      have hnext := ih (j + 1)
      rw [Nat.add_assoc, Nat.add_comm 1 m] at hnext
      rw [restoreUp, if_pos ⟨Nat.two_pow_pos j, hlt⟩, probed, restore_probe, ← Nat.pow_succ]
      exact hnext

/-- What is written to a probed word is not zero. -/
theorem complement_two_pow_ne (j : ℕ) : (0 : UInt32) ≠ ~~~ UInt32.ofNat (2 ^ j) := by
  intro h
  have hnat := congrArg UInt32.toNat h
  rw [UInt32.toNat_not, UInt32.toNat_ofNat'] at hnat
  cases j with
  | zero => exact absurd hnat (by decide)
  | succ j =>
      rw [Nat.pow_succ] at hnat
      have hzero : (0 : UInt32).toNat = 0 := rfl
      have hsize : UInt32.size = 2 ^ 32 := rfl
      omega

/-- The last loop, in a memory of `2 ^ k` words. -/
theorem sizeUp_probed (s : RamTest) {k j m : ℕ} (hj : j ≤ k) (hk : k ≤ j + m) :
    sizeUp (2 ^ k) (2 ^ (j + m) * sizeofLong) ((probed (2 ^ k) s j m).dirty 0) (2 ^ j) =
      if k < j + m then (2 ^ k * sizeofLong, s.mem)
      else (2 ^ (j + m) * sizeofLong, (s.dirty 0).mem) := by
  have hlimit : 2 ^ (j + m) * sizeofLong / sizeofLong = 2 ^ (j + m) :=
    Nat.mul_div_cancel _ (by decide)
  induction m generalizing j with
  | zero =>
      rw [sizeUp, hlimit, if_neg fun h => lt_irrefl _ h.2, if_neg (by omega), probed]
  | succ m ih =>
      have hlt : 2 ^ j < 2 ^ (j + (m + 1)) :=
        Nat.pow_lt_pow_right (by decide) (by omega)
      have hassoc : j + (m + 1) = j + 1 + m := by omega
      rw [sizeUp, hlimit, if_pos ⟨Nat.two_pow_pos j, hlt⟩, probed]
      dsimp only
      rcases Nat.lt_or_eq_of_le hj with hbelow | rfl
      · have hmod : 2 ^ j % 2 ^ k ≠ 0 := by
          rw [Nat.mod_eq_of_lt (Nat.pow_lt_pow_right (by decide) hbelow)]
          exact (Nat.two_pow_pos j).ne'
        rw [read_dirty_probe hmod, if_neg (not_not.mpr rfl), restore_dirty_probe hmod,
          ← Nat.pow_succ, hassoc]
        rw [hassoc] at hk hlimit
        exact ih hbelow hk hlimit
      · have hmod : 2 ^ j % 2 ^ j = 0 := Nat.mod_self _
        have hread : ramRead (2 ^ j)
            (((probed (2 ^ j) s (j + 1) m).probe (2 ^ j) (2 ^ j)).dirty 0).mem (2 ^ j) =
              0 := by
          simp only [ramRead, hmod, RamTest.dirty, Memory.store_same]
        rw [hread, if_pos (complement_two_pow_ne j), restore_dirty_alias hmod,
          ← Nat.pow_succ, if_pos (by omega), hassoc, restoreUp_probed]

/-- What `get_ram_size` returns, and what it leaves. -/
theorem getRamSize_eq {k n : ℕ} (hk : k ≤ n) (mem : Memory UInt32) :
    getRamSize (2 ^ k) mem (2 ^ n * sizeofLong) =
      if k < n then (2 ^ k * sizeofLong, mem)
      else (2 ^ n * sizeofLong, mem.store 0 0) := by
  have hlimit : 2 ^ n * sizeofLong / sizeofLong = 2 ^ n :=
    Nat.mul_div_cancel _ (by decide)
  have hprobed : probeDown (2 ^ k) ⟨mem, []⟩ (2 ^ n / 2) =
      probed (2 ^ k) ⟨mem, []⟩ 0 n := probeDown_probed ⟨mem, []⟩ n 0
  have hloop := sizeUp_probed ⟨mem, []⟩ (Nat.zero_le k) (m := n) (by omega)
  have hread : ramRead (2 ^ k)
      (ramWrite (2 ^ k) (probed (2 ^ k) ⟨mem, []⟩ 0 n).mem 0 0) 0 = 0 := by
    simp only [ramRead, ramWrite, Memory.store_same]
  rw [Nat.zero_add] at hloop
  rw [getRamSize, hlimit, hprobed]
  dsimp only
  rw [hread, if_neg (not_not.mpr rfl), ramWrite, Nat.zero_mod]
  exact hloop

/-! ## The result -/

/-- The size is found and the memory is kept, except where the memory is as large as
`maxsize`: then the first word is lost, unless it was zero. -/
theorem sizesRam_iff {maxsize : ℕ} (mem : Memory UInt32)
    (hwords : ∃ k, words = 2 ^ k) (hmaxsize : ∃ n, maxsize = 2 ^ n)
    (hle : words * sizeofLong ≤ maxsize) :
    SizesRam words mem maxsize ↔ words * sizeofLong < maxsize ∨ mem 0 = 0 := by
  obtain ⟨k, rfl⟩ := hwords
  obtain ⟨n, rfl⟩ := hmaxsize
  have hsize : sizeofLong = 2 ^ 2 := rfl
  have hexp : k + 2 ≤ n := by
    rw [hsize, ← Nat.pow_add] at hle
    exact (Nat.pow_le_pow_iff_right (by decide)).mp hle
  obtain ⟨m, rfl⟩ := Nat.exists_eq_add_of_le' (Nat.le_of_add_left_le hexp)
  have hk : k ≤ m := by omega
  have hlt : 2 ^ k * sizeofLong < 2 ^ (m + 2) ↔ k < m := by
    rw [hsize, ← Nat.pow_add, Nat.pow_lt_pow_iff_right (by decide)]
    omega
  have hmax : 2 ^ (m + 2) = 2 ^ m * sizeofLong := Nat.pow_add 2 m 2
  rw [SizesRam, hlt, hmax, getRamSize_eq hk]
  by_cases hsmall : k < m
  · rw [if_pos hsmall]
    exact iff_of_true ⟨rfl, fun _ _ => rfl⟩ (Or.inl hsmall)
  · obtain rfl : k = m := by omega
    rw [if_neg hsmall]
    constructor
    · rintro ⟨-, hkept⟩
      exact Or.inr ((hkept 0 (Nat.two_pow_pos k)).symm.trans
        (Memory.store_same mem 0 0))
    · rintro (hlarge | hzero)
      · exact absurd hlarge hsmall
      · refine ⟨rfl, fun i _ => ?_⟩
        show mem.store 0 0 i = mem i
        rw [← hzero, Memory.store_self]

theorem sizesRam_iff_half : SizesRam (2 ^ 23) (fun _ => 7) (2 ^ 26) ↔
    2 ^ 23 * sizeofLong < 2 ^ 26 ∨ (7 : UInt32) = 0 :=
  sizesRam_iff (fun _ => 7) ⟨23, rfl⟩ ⟨26, rfl⟩ (by decide)

/-- A memory as large as `maxsize`, with something in its first word. -/
theorem fullRam_not_sizesRam : ¬ SizesRam (2 ^ 24) (fun _ => 7) (2 ^ 26) := by
  intro h
  have heq := getRamSize_eq (Nat.le_refl 24) fun _ => 7
  have hmax : 2 ^ 26 = 2 ^ 24 * sizeofLong := rfl
  have hkept := h.2 0 (Nat.two_pow_pos 24)
  rw [hmax, heq] at hkept
  exact absurd hkept (by decide)

end TateFirmware.Boot
