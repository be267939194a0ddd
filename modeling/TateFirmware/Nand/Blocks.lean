import Mathlib.Algebra.Order.Group.Nat
import Mathlib.Algebra.Order.Ring.Nat
import Mathlib.Data.Int.DivMod
import Mathlib.Data.List.Basic
import Mathlib.Data.Nat.Bitwise
import Mathlib.Tactic.Ring

/-!
# NAND devices and the skipping of bad blocks

`nand_write_opts` and `nand_read_opts` of `drivers/nand/nand_util.c` look for the
next block that may be used in two nested loops.  The inner one checks all
blocks of an erase block, from the start of the erase block taken as an `int`;
the outer one is repeated until the block of the current offset is one that has
been checked and is not bad.  Offsets are unsigned and have 32 bits.
-/

namespace TateFirmware.Nand

/-! ## Devices -/

/-- `struct mtd_info` of a NAND device.  Pages and blocks are powers of two, the
largest block of `nand_get_flash_type` has `(64 * 1024) << 3` bytes, and
`nand_scan` of one chip finds at most 2048 megabytes.  `oobfree` is the first
free place of `oobinfo` where `useecc` is `MTD_NANDECC_AUTOPLACE`. -/
structure NandInfo where
  oobsize : ℕ
  pageShift : ℕ
  eraseShift : ℕ
  blocks : ℕ
  oobfree : Option (ℕ × ℕ)
  oobsize_le : oobsize ≤ 2 ^ pageShift
  oobfree_lt : ∀ free ∈ oobfree, free.1 < 2 ^ pageShift
  page_le : pageShift ≤ eraseShift
  erase_le : eraseShift ≤ 19
  size_le : blocks * 2 ^ eraseShift ≤ 2 ^ 31

namespace NandInfo

def oobblock (info : NandInfo) : ℕ := 2 ^ info.pageShift

def erasesize (info : NandInfo) : ℕ := 2 ^ info.eraseShift

def size (info : NandInfo) : ℕ := info.blocks * info.erasesize

/-- The pages of a block. -/
def blockPages (info : NandInfo) : ℕ := 2 ^ (info.eraseShift - info.pageShift)

theorem oobblock_pos (info : NandInfo) : 0 < info.oobblock :=
  Nat.two_pow_pos _

theorem erasesize_pos (info : NandInfo) : 0 < info.erasesize :=
  Nat.two_pow_pos _

theorem erasesize_le (info : NandInfo) : info.erasesize ≤ 2 ^ 19 :=
  Nat.pow_le_pow_right (by decide) info.erase_le

theorem size_le_int (info : NandInfo) : info.size ≤ 2 ^ 31 := info.size_le

theorem erasesize_eq (info : NandInfo) :
    info.erasesize = info.blockPages * info.oobblock := by
  rw [erasesize, blockPages, oobblock, ← pow_add]
  congr 1
  have := info.page_le
  omega

theorem oobblock_dvd (info : NandInfo) : info.oobblock ∣ info.erasesize :=
  Dvd.intro_left _ info.erasesize_eq.symm

theorem erasesize_dvd_size (info : NandInfo) : info.erasesize ∣ info.size :=
  Dvd.intro_left _ rfl

end NandInfo

/-- `nand_block_isbad`, where `checkbad` is `nand_block_checkbad`. -/
def nandBlockIsbad (info : NandInfo) (checkbad : ℤ → Bool) (ofs : ℤ) : ℤ :=
  if info.size < ofs then -22 else if checkbad ofs then 1 else 0

/-! ## The loops over the blocks -/

/-- `mtdoffset & (~align + 1)`. -/
def maskDown (align mtdoffset : ℕ) : ℕ := mtdoffset &&& (2 ^ 32 - align)

/-- How the check of an erase block ends; `running` while the loop has not. -/
inductive Check where
  | running
  | failed
  | done (baderaseblock : Bool)
deriving DecidableEq

/-- The `do` loop over the blocks of an erase block that ends at `bound`. -/
def checkBlocks (info : NandInfo) (checkbad : ℤ → Bool) (bound step : ℕ) :
    ℕ → ℤ → Bool → Check
  | 0, _, _ => .running
  | fuel + 1, offs, baderaseblock =>
      if nandBlockIsbad info checkbad offs < 0 then .failed
      else if offs + step < bound then
        checkBlocks info checkbad bound step fuel (offs + step)
          (baderaseblock || nandBlockIsbad info checkbad offs = 1)
      else .done (baderaseblock || nandBlockIsbad info checkbad offs = 1)

/-- Where the search for a block to use ends. -/
inductive Found where
  | running
  | failed
  | found (blockstart mtdoffset : ℕ)
deriving DecidableEq

/-- The loop that is repeated while `blockstart` is not the erase block of
`mtdoffset`; `fuel` is for the check of one erase block. -/
def skipBad (info : NandInfo) (checkbad : ℤ → Bool) (align step fuel : ℕ) :
    ℕ → ℕ → ℕ → Found
  | 0, _, _ => .running
  | n + 1, blockstart, mtdoffset =>
      if blockstart = maskDown align mtdoffset then
        .found blockstart mtdoffset
      else
        match checkBlocks info checkbad
            ((maskDown align mtdoffset + align) % 2 ^ 32) step fuel
            (Int.bmod (maskDown align mtdoffset) (2 ^ 32)) false with
        | .running => .running
        | .failed => .failed
        | .done true =>
            skipBad info checkbad align step fuel n (maskDown align mtdoffset)
              ((maskDown align mtdoffset + align) % 2 ^ 32)
        | .done false =>
            skipBad info checkbad align step fuel n (maskDown align mtdoffset)
              mtdoffset

attribute [grind =] skipBad

/-! ## The block of an offset -/

theorem maskDown_two_pow {k : ℕ} (hk : k ≤ 32) {m : ℕ} (hm : m < 2 ^ 32) :
    maskDown (2 ^ k) m = m / 2 ^ k * 2 ^ k := by
  have hmask : 2 ^ 32 - 2 ^ k = 2 ^ 32 - ((2 ^ k - 1) + 1) := by
    have := Nat.two_pow_pos k
    omega
  have hlt : 2 ^ k - 1 < 2 ^ 32 :=
    (Nat.sub_lt (Nat.two_pow_pos k) Nat.one_pos).trans_le
      (Nat.pow_le_pow_right (by decide) hk)
  refine Nat.eq_of_testBit_eq fun i => ?_
  rw [maskDown, hmask, Nat.testBit_and, Nat.testBit_two_pow_sub_succ hlt,
    Nat.testBit_two_pow_sub_one, Nat.testBit_mul_two_pow, Nat.testBit_div_two_pow]
  by_cases hik : k ≤ i
  · rw [Nat.sub_add_cancel hik]
    by_cases hi : i < 32
    · simp [hik, hi, Nat.not_lt.mpr hik]
    · have hbit : m.testBit i = false :=
        Nat.testBit_lt_two_pow (hm.trans_le
          (Nat.pow_le_pow_right (by decide) (by omega)))
      simp [hbit]
  · simp [hik, Nat.lt_of_not_le hik]

section Blocks

variable {info : NandInfo} {checkbad : ℤ → Bool}

/-- The start of the block of an offset. -/
def NandInfo.blockOf (info : NandInfo) (m : ℕ) : ℕ :=
  m / info.erasesize * info.erasesize

/-- The block of an offset is bad. -/
def NandInfo.badAt (info : NandInfo) (checkbad : ℤ → Bool) (m : ℕ) : Bool :=
  checkbad (info.blockOf m)

theorem blockOf_le (m : ℕ) : info.blockOf m ≤ m := Nat.div_mul_le_self _ _

theorem lt_blockOf_add (m : ℕ) : m < info.blockOf m + info.erasesize :=
  Nat.lt_div_mul_add info.erasesize_pos

theorem dvd_blockOf (m : ℕ) : info.erasesize ∣ info.blockOf m :=
  Dvd.intro_left _ rfl

theorem blockOf_of_dvd {m : ℕ} (hm : info.erasesize ∣ m) :
    info.blockOf m = m := Nat.div_mul_cancel hm

/-- Offsets of one block have its start. -/
theorem blockOf_eq {b m : ℕ} (hb : info.erasesize ∣ b) (hle : b ≤ m)
    (hlt : m < b + info.erasesize) : info.blockOf m = b := by
  obtain ⟨k, rfl⟩ := hb
  have hdiv : m / info.erasesize = k := by
    refine Nat.div_eq_of_lt_le ?_ ?_
    · rwa [Nat.mul_comm]
    · rwa [Nat.succ_mul, Nat.mul_comm]
  rw [NandInfo.blockOf, hdiv, Nat.mul_comm]

/-- A block that starts in the device ends in it. -/
theorem blockOf_add_le {m : ℕ} (hm : m < info.size) :
    info.blockOf m + info.erasesize ≤ info.size := by
  have hdvd : info.erasesize ∣ info.blockOf m := dvd_blockOf m
  obtain ⟨k, hk⟩ := hdvd
  have hle : info.blockOf m ≤ m := blockOf_le m
  rw [hk, NandInfo.size, Nat.mul_comm info.erasesize k, ← Nat.succ_mul]
  refine Nat.mul_le_mul_right _ (Nat.succ_le_of_lt ?_)
  have hlt : k * info.erasesize < info.blocks * info.erasesize := by
    rw [Nat.mul_comm, ← hk]
    exact hle.trans_lt hm
  exact Nat.lt_of_mul_lt_mul_right hlt

theorem maskDown_erasesize {m : ℕ} (hm : m < 2 ^ 32) :
    maskDown info.erasesize m = info.blockOf m :=
  maskDown_two_pow (info.erase_le.trans (by decide)) hm

/-! ## One block -/

theorem nandBlockIsbad_of_le {ofs : ℤ} (h : ofs ≤ info.size) :
    nandBlockIsbad info checkbad ofs = if checkbad ofs then 1 else 0 :=
  if_neg (not_lt.mpr h)

theorem nandBlockIsbad_neg_iff {ofs : ℤ} :
    nandBlockIsbad info checkbad ofs < 0 ↔ info.size < ofs := by
  unfold nandBlockIsbad
  split
  · simp_all
  · split <;> simp_all

/-- The check of an erase block of one block in the device. -/
theorem checkBlocks_one {b fuel : ℕ} (hb : b ≤ info.size)
    (hint : b + info.erasesize ≤ 2 ^ 31) :
    checkBlocks info checkbad ((b + info.erasesize) % 2 ^ 32) info.erasesize
        (fuel + 1) (Int.bmod b (2 ^ 32)) false =
      .done (checkbad b) := by
  have hpos := info.erasesize_pos
  have hofs : Int.bmod (b : ℤ) (2 ^ 32) = b := by
    rw [Int.bmod_def]
    omega
  have hbound : (b + info.erasesize) % 2 ^ 32 = b + info.erasesize :=
    Nat.mod_eq_of_lt (hint.trans_lt (by decide))
  have hle : (b : ℤ) ≤ info.size := by exact_mod_cast hb
  have hisbad := @nandBlockIsbad_of_le info checkbad _ hle
  rw [hofs, hbound, checkBlocks,
    if_neg (by rw [nandBlockIsbad_neg_iff]; exact not_lt.mpr hle),
    if_neg (by push_cast; omega), hisbad]
  cases checkbad b <;> rfl

/-- An offset taken as an `int` differs by whole blocks. -/
theorem erasesize_dvd_sub_bmod (m : ℕ) :
    (info.erasesize : ℤ) ∣ m - Int.bmod m (2 ^ 32) := by
  have hword : (info.erasesize : ℤ) ∣ (2 ^ 32 : ℕ) :=
    Int.natCast_dvd_natCast.mpr
      (pow_dvd_pow 2 (info.erase_le.trans (by decide)))
  exact hword.trans Int.dvd_self_sub_bmod

/-- The check of a block that starts behind the end of the device finds the end
at the latest in that block. -/
theorem checkBlocks_not_done {b fuel : ℕ} {offs : ℤ} {bad bad' : Bool}
    (hb : info.size < b) (hoffs : offs ≤ b)
    (hdvd : (info.erasesize : ℤ) ∣ b - offs) :
    checkBlocks info checkbad (b + info.erasesize) info.erasesize fuel offs
      bad ≠ .done bad' := by
  induction fuel generalizing offs bad with
  | zero => simp [checkBlocks]
  | succ fuel ih =>
      have hpos := info.erasesize_pos
      rw [checkBlocks]
      split
      · simp
      · rename_i hisbad
        rw [nandBlockIsbad_neg_iff, not_lt] at hisbad
        have hlt : offs < b := by omega
        have hstep : offs + info.erasesize ≤ b := by
          have := Int.le_of_dvd (by omega) hdvd
          omega
        rw [if_pos (by push_cast; omega)]
        refine ih hstep ?_
        have hsub : (b : ℤ) - (offs + info.erasesize) =
            b - offs - info.erasesize := by ring
        rw [hsub]
        exact Int.dvd_sub hdvd (dvd_refl _)

/-! ## The search -/

/-- The search passes a bad block. -/
theorem skipBad_bad {fuel n bs m : ℕ} (hm : m < info.size)
    (hbs : bs ≠ info.blockOf m) (hbad : info.badAt checkbad m = true) :
    skipBad info checkbad info.erasesize info.erasesize (fuel + 1) (n + 1)
        bs m =
      skipBad info checkbad info.erasesize info.erasesize (fuel + 1) n
        (info.blockOf m) (info.blockOf m + info.erasesize) := by
  have hsize := info.size_le_int
  have hend : info.blockOf m + info.erasesize ≤ info.size := blockOf_add_le hm
  have hle : info.blockOf m ≤ m := blockOf_le m
  rw [skipBad, maskDown_erasesize (by omega), if_neg hbs,
    checkBlocks_one (hle.trans hm.le) (hend.trans hsize)]
  rw [NandInfo.badAt] at hbad
  rw [hbad, Nat.mod_eq_of_lt (by omega)]

/-- The search ends in a good block. -/
theorem skipBad_good {fuel n bs m : ℕ} (hm : m < info.size)
    (hgood : info.badAt checkbad m = false) :
    skipBad info checkbad info.erasesize info.erasesize (fuel + 1) (n + 2)
        bs m = .found (info.blockOf m) m := by
  have hsize := info.size_le_int
  have hend : info.blockOf m + info.erasesize ≤ info.size := blockOf_add_le hm
  have hle : info.blockOf m ≤ m := blockOf_le m
  have hmask : maskDown info.erasesize m = info.blockOf m :=
    maskDown_erasesize (by omega)
  rw [skipBad, hmask]
  split
  · rename_i hbs
    rw [hbs]
  · rw [checkBlocks_one (hle.trans hm.le) (hend.trans hsize)]
    rw [NandInfo.badAt] at hgood
    rw [hgood]
    simp only
    rw [skipBad, hmask, if_pos rfl]

/-- A search that starts at the end of the device finds nothing in it, and ends
not far behind. -/
theorem skipBad_past {fuel n bs m bs' m' : ℕ} (hdvd : info.erasesize ∣ m)
    (hle : info.size ≤ m) (hm : m ≤ info.size + info.erasesize)
    (h : skipBad info checkbad info.erasesize info.erasesize fuel n bs m =
      .found bs' m') :
    info.size ≤ m' ∧ m' ≤ info.size + info.erasesize := by
  induction n generalizing bs m with
  | zero => simp [skipBad] at h
  | succ n ih =>
      have hsize := info.size_le_int
      have herase := info.erasesize_le
      have hmask : maskDown info.erasesize m = m := by
        rw [maskDown_erasesize (by omega), blockOf_of_dvd hdvd]
      rw [skipBad, hmask] at h
      split at h
      · simp only [Found.found.injEq] at h
        omega
      · rw [Nat.mod_eq_of_lt (by omega)] at h
        by_cases hpast : info.size < m
        · have hnot : ∀ bad, checkBlocks info checkbad (m + info.erasesize)
              info.erasesize fuel (Int.bmod m (2 ^ 32)) false ≠ .done bad := by
            intro bad
            refine checkBlocks_not_done hpast ?_ ?_
            · rw [Int.bmod_def]
              omega
            · exact erasesize_dvd_sub_bmod m
          split at h <;> simp_all
        · have heq : m = info.size := by omega
          subst heq
          split at h
          · simp at h
          · simp at h
          · refine ih ?_ (Nat.le_add_right _ _) le_rfl h
            exact Nat.dvd_add hdvd (dvd_refl _)
          · exact ih hdvd le_rfl hm h

/-- `blockstart` is not the block of the offset unless that has been checked. -/
def Checked (info : NandInfo) (checkbad : ℤ → Bool) (bs m : ℕ) : Prop :=
  bs = info.blockOf m → info.badAt checkbad m = false

theorem Checked.ne {bs m : ℕ} (h : Checked info checkbad bs m)
    (hbad : info.badAt checkbad m = true) : bs ≠ info.blockOf m := by
  intro heq
  rw [h heq] at hbad
  exact Bool.noConfusion hbad

theorem Checked.next {p : ℕ} (hgood : info.badAt checkbad p = false) (m : ℕ) :
    Checked info checkbad (info.blockOf p) m := by
  intro heq
  rw [NandInfo.badAt, ← heq]
  exact hgood

/-- `p` is the next offset from `m` on that lies in a good block. -/
structure NextGood (info : NandInfo) (checkbad : ℤ → Bool) (m p : ℕ) : Prop where
  lt : p < info.size
  le : m ≤ p
  good : info.badAt checkbad p = false
  place : p = m ∨ info.erasesize ∣ p
  between : ∀ q, m ≤ q → q < p → info.badAt checkbad q = true

/-- Behind a bad block the search goes on with the next one. -/
theorem NextGood.of_next {m p : ℕ} (hbad : info.badAt checkbad m = true)
    (h : NextGood info checkbad (info.blockOf m + info.erasesize) p) :
    NextGood info checkbad m p where
  lt := h.lt
  le := (lt_blockOf_add m).le.trans h.le
  good := h.good
  place := by
    rcases h.place with hplace | hplace
    · rw [hplace]
      exact Or.inr (Nat.dvd_add (dvd_blockOf m) (dvd_refl _))
    · exact Or.inr hplace
  between := by
    intro q hq hlt
    rcases Nat.lt_or_ge q (info.blockOf m + info.erasesize) with hin | hout
    · have hle : info.blockOf m ≤ m := blockOf_le m
      have hblock : info.blockOf q = info.blockOf m :=
        blockOf_eq (dvd_blockOf m) (hle.trans hq) hin
      rw [NandInfo.badAt, hblock]
      exact hbad
    · exact h.between q hout hlt

/-- The block that follows the one of an offset is not the one checked. -/
theorem blockOf_next_ne (m : ℕ) :
    info.blockOf m ≠ info.blockOf (info.blockOf m + info.erasesize) := by
  have hpos := info.erasesize_pos
  rw [blockOf_of_dvd (Nat.dvd_add (dvd_blockOf m) (dvd_refl _))]
  omega

/-- What a search from `m` on finds: the next offset in a good block, or one
behind the device. -/
def FoundAt (info : NandInfo) (checkbad : ℤ → Bool) (m bs' m' : ℕ) : Prop :=
  (bs' = info.blockOf m' ∧ NextGood info checkbad m m') ∨
    (info.size ≤ m' ∧ m' ≤ info.size + info.erasesize)

theorem skipBad_found {fuel n bs m bs' m' : ℕ} (hm : m < info.size)
    (hbs : Checked info checkbad bs m)
    (h : skipBad info checkbad info.erasesize info.erasesize (fuel + 1) n bs m =
      .found bs' m') : FoundAt info checkbad m bs' m' := by
  induction n generalizing bs m with
  | zero => simp [skipBad] at h
  | succ n ih =>
      cases hbad : info.badAt checkbad m with
      | true =>
          have hend : info.blockOf m + info.erasesize ≤ info.size :=
            blockOf_add_le hm
          rw [skipBad_bad hm (hbs.ne hbad) hbad] at h
          rcases Nat.lt_or_ge (info.blockOf m + info.erasesize) info.size with
            hin | hout
          · rcases ih hin (fun heq => absurd heq (blockOf_next_ne m)) h with
              ⟨hblock, hnext⟩ | hpast
            · exact Or.inl ⟨hblock, hnext.of_next hbad⟩
            · exact Or.inr hpast
          · exact Or.inr (skipBad_past
              (Nat.dvd_add (dvd_blockOf m) (dvd_refl _)) hout (by omega) h)
      | false =>
          have hnext : NextGood info checkbad m m :=
            ⟨hm, le_rfl, hbad, Or.inl rfl, fun q hq hlt => by omega⟩
          cases n with
          | zero =>
              rw [skipBad, maskDown_erasesize
                (hm.trans_le (info.size_le_int.trans (by decide)))] at h
              split at h
              · rename_i hblock
                simp only [Found.found.injEq] at h
                obtain ⟨rfl, rfl⟩ := h
                exact Or.inl ⟨hblock, hnext⟩
              · split at h <;> simp [skipBad] at h
          | succ n =>
              rw [skipBad_good hm hbad] at h
              simp only [Found.found.injEq] at h
              obtain ⟨rfl, rfl⟩ := h
              exact Or.inl ⟨rfl, hnext⟩

/-- The search finds the next good block, given as many rounds as there are
blocks in between. -/
theorem skipBad_reaches {fuel n bs m p : ℕ} (h : NextGood info checkbad m p)
    (hbs : Checked info checkbad bs m)
    (hn : p - info.blockOf m < n * info.erasesize) :
    skipBad info checkbad info.erasesize info.erasesize (fuel + 1) (n + 1)
        bs m = .found (info.blockOf p) p := by
  induction n generalizing bs m with
  | zero => omega
  | succ n ih =>
      rcases Nat.eq_or_lt_of_le h.le with rfl | hlt
      · exact skipBad_good h.lt h.good
      · have hbad := h.between m le_rfl hlt
        have hle : info.blockOf m ≤ m := blockOf_le m
        have hend := @lt_blockOf_add info m
        have hdvd : info.erasesize ∣ info.blockOf m + info.erasesize :=
          Nat.dvd_add (dvd_blockOf m) (dvd_refl _)
        have hge : info.blockOf m + info.erasesize ≤ p := by
          by_contra hin
          have hblock : info.blockOf p = info.blockOf m :=
            blockOf_eq (dvd_blockOf m) (hle.trans h.le) (by omega)
          have hgood := h.good
          rw [NandInfo.badAt, hblock] at hgood
          rw [NandInfo.badAt, hgood] at hbad
          exact Bool.noConfusion hbad
        have hnext : NextGood info checkbad
            (info.blockOf m + info.erasesize) p :=
          ⟨h.lt, hge, h.good, Or.inr (h.place.resolve_left (by omega)),
            fun q hq => h.between q (by omega)⟩
        rw [skipBad_bad (hlt.trans h.lt) (hbs.ne hbad) hbad]
        refine ih hnext (fun heq => absurd heq (blockOf_next_ne m)) ?_
        rw [blockOf_of_dvd hdvd]
        rw [Nat.succ_mul] at hn
        omega

end Blocks

end TateFirmware.Nand
