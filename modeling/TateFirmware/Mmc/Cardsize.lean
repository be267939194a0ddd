import Mathlib.Tactic.NormNum
import Mathlib.Tactic.Ring
import TateFirmware.Mmc.Host

/-!
# The size of a card

`mmc_read_cardsize` computes the size of a card in sectors from the register CSD,
or from the extended CSD of a sector-addressed MMC card.  The size in bytes is a
product in 32 bits, so it is lost for the one card of 4 GiB that the fields of a
byte-addressed card can describe, and likewise for the largest SD card.
-/

namespace TateFirmware.Mmc

/-! ## Fields of a register -/

/-- The field of `len` bits of `w` from bit `lo` on. -/
def bits (w lo len : ℕ) : ℕ := w / 2 ^ lo % 2 ^ len

theorem bits_lt (w lo len : ℕ) : bits w lo len < 2 ^ len :=
  Nat.mod_lt _ (Nat.two_pow_pos len)

/-- A field of a field. -/
theorem bits_bits {lo len len' : ℕ} (w start : ℕ) (hfit : lo + len ≤ len') :
    bits (bits w start len') lo len = bits w (start + lo) len := by
  unfold bits
  rw [show len' = lo + (len' - lo) by omega, pow_add,
    Nat.mod_mul_right_div_self, Nat.div_div_eq_div_mul, ← pow_add,
    Nat.mod_mod_of_dvd]
  exact pow_dvd_pow 2 (by omega)

/-- Two adjacent fields. -/
theorem bits_add (w lo a b : ℕ) :
    bits w lo (a + b) = bits w lo a + 2 ^ a * bits w (lo + a) b := by
  unfold bits
  rw [pow_add, Nat.mod_mul, Nat.div_div_eq_div_mul, ← pow_add]

/-- A field put together from its two masked parts. -/
theorem or_shiftLeft {low high a b : ℕ} (hlow : low < 2 ^ a)
    (hhigh : high < 2 ^ b) :
    (low &&& (2 ^ a - 1)) ||| ((high &&& (2 ^ b - 1)) <<< a) =
      low + 2 ^ a * high := by
  rw [Nat.and_two_pow_sub_one_eq_mod, Nat.and_two_pow_sub_one_eq_mod,
    Nat.mod_eq_of_lt hlow, Nat.mod_eq_of_lt hhigh, Nat.or_comm,
    ← Nat.shiftLeft_add_eq_or_of_lt hlow, Nat.shiftLeft_eq]
  ring

/-! ## The registers -/

/-- `MMC_CARD` and `SD_CARD`. -/
inductive CardType where
  | mmcCard
  | sdCard
deriving DecidableEq, Repr

/-- One of the four words that the response to `MMC_CMD9` consists of. -/
def csdWord (csd : BitVec 128) (i : ℕ) : ℕ := bits csd.toNat (32 * i) 32

/-- The fields of `mmc_csd_reg_t` that are read. -/
structure MmcCsdReg where
  cSizeMult : ℕ
  cSizeLsb : ℕ
  cSizeMsb : ℕ
  readBlLen : ℕ

/-- The words as a `mmc_csd_reg_t`. -/
def mmcCsdReg (csd : BitVec 128) : MmcCsdReg where
  cSizeMult := bits (csdWord csd 1) 15 3
  cSizeLsb := bits (csdWord csd 1) 30 2
  cSizeMsb := bits (csdWord csd 2) 0 10
  readBlLen := bits (csdWord csd 2) 16 4

/-- The fields of `mmc_sd2_csd_reg_t` that are read. -/
structure MmcSd2CsdReg where
  cSizeLsb : ℕ
  cSizeMsb : ℕ

/-- The words as a `mmc_sd2_csd_reg_t`. -/
def mmcSd2CsdReg (csd : BitVec 128) : MmcSd2CsdReg where
  cSizeLsb := bits (csdWord csd 1) 16 16
  cSizeMsb := bits (csdWord csd 2) 0 6

/-- The answers to the reading of the extended CSD: the values of `STAT` for the
command and for the transfer, and `sectorcount` afterwards. -/
structure ExtendedCsd where
  commandReport : List ℕ
  transferReport : List ℕ
  sectorcount : ℕ

/-- The return value of `mmc_read_data`. -/
def readDataPoll : List ℕ → ℕ
  | [] => 1
  | stat :: rest =>
      if stat = 0 then readDataPoll rest
      else if erriMask stat then stat % 256
      else if tcMask stat then 1
      else readDataPoll rest

/-- `mmc_read_cardsize`: the value returned and the card with its size. -/
def mmcReadCardsize (cardType : CardType) (csd : BitVec 128)
    (extCsd : ExtendedCsd) (card : CardData) : ℕ × CardData :=
  match card.mode, cardType with
  | .sectorMode, .sdCard =>
      let reg := mmcSd2CsdReg csd
      let cardSize := (reg.cSizeLsb &&& 0xFFFF) |||
        ((reg.cSizeMsb &&& 0x3F) <<< 16)
      let size := (cardSize + 1) * 1024 % 2 ^ 32
      (if size = 0 then 0 else 1, { card with size := size })
  | .sectorMode, .mmcCard =>
      let err := (sendCmdPoll extCsd.commandReport).1
      if err ≠ 1 then (err, card)
      else
        let err := readDataPoll extCsd.transferReport
        if err ≠ 1 then (err, card)
        else
          let size := extCsd.sectorcount
          (1, { card with size := if size = 0 then 8388608 else size })
  | .byteMode, _ =>
      let reg := mmcCsdReg csd
      if 8 ≤ reg.cSizeMult then (0, card)
      else if 12 ≤ reg.readBlLen then (0, card)
      else
        let count := 1 <<< (reg.cSizeMult + 2)
        let cardSize := (reg.cSizeLsb &&& 0x3) |||
          ((reg.cSizeMsb &&& 0x3FF) <<< 2)
        let blkNo := (cardSize + 1) * count % 2 ^ 32
        let blkLen := 1 <<< reg.readBlLen
        let size := blkNo * blkLen % 2 ^ 32 / mmcsdSectorSize
        (if size = 0 then 0 else 1, { card with size := size })

/-! ## What the registers encode -/

section Fields

variable (csd : BitVec 128)

/-- `C_SIZE` of a byte-addressed card. -/
def cSize : ℕ := bits csd.toNat 62 12

/-- `C_SIZE_MULT`. -/
def cSizeMult : ℕ := bits csd.toNat 47 3

/-- `READ_BL_LEN`. -/
def readBlLen : ℕ := bits csd.toNat 80 4

/-- `C_SIZE` of a sector-addressed SD card. -/
def sd2CSize : ℕ := bits csd.toNat 48 22

theorem cSize_eq :
    ((mmcCsdReg csd).cSizeLsb &&& 0x3) |||
        (((mmcCsdReg csd).cSizeMsb &&& 0x3FF) <<< 2) = cSize csd := by
  have hlow : (mmcCsdReg csd).cSizeLsb = bits csd.toNat 62 2 :=
    bits_bits _ 32 (by norm_num)
  have hhigh : (mmcCsdReg csd).cSizeMsb = bits csd.toNat 64 10 :=
    bits_bits _ 64 (by norm_num)
  rw [hlow, hhigh, cSize, bits_add _ 62 2 10]
  exact or_shiftLeft (bits_lt csd.toNat 62 2) (bits_lt csd.toNat 64 10)

theorem sd2CSize_eq :
    ((mmcSd2CsdReg csd).cSizeLsb &&& 0xFFFF) |||
        (((mmcSd2CsdReg csd).cSizeMsb &&& 0x3F) <<< 16) = sd2CSize csd := by
  have hlow : (mmcSd2CsdReg csd).cSizeLsb = bits csd.toNat 48 16 :=
    bits_bits _ 32 (by norm_num)
  have hhigh : (mmcSd2CsdReg csd).cSizeMsb = bits csd.toNat 64 6 :=
    bits_bits _ 64 (by norm_num)
  rw [hlow, hhigh, sd2CSize, bits_add _ 48 16 6,
    show (0xFFFF : ℕ) = 2 ^ 16 - 1 by norm_num,
    show (0x3F : ℕ) = 2 ^ 6 - 1 by norm_num]
  exact or_shiftLeft (bits_lt csd.toNat 48 16) (bits_lt csd.toNat 64 6)

theorem cSizeMult_eq : (mmcCsdReg csd).cSizeMult = cSizeMult csd :=
  bits_bits _ 32 (by norm_num)

theorem readBlLen_eq : (mmcCsdReg csd).readBlLen = readBlLen csd :=
  bits_bits _ 64 (by norm_num)

end Fields

/-- The capacity in sectors that the registers encode. -/
def capacity (mode : Mode) (cardType : CardType) (csd : BitVec 128)
    (extCsd : ExtendedCsd) : ℕ :=
  match mode, cardType with
  | .sectorMode, .sdCard => (sd2CSize csd + 1) * 1024
  | .sectorMode, .mmcCard => extCsd.sectorcount
  | .byteMode, _ =>
      (cSize csd + 1) * 2 ^ (cSizeMult csd + 2) * 2 ^ readBlLen csd / 512

/-- Registers as the specification admits them: the length of a block is at most
2048, and a sector-addressed MMC card has an extended CSD, with sectors. -/
def Admitted (mode : Mode) (cardType : CardType) (csd : BitVec 128)
    (extCsd : ExtendedCsd) : Prop :=
  match mode, cardType with
  | .sectorMode, .sdCard => True
  | .sectorMode, .mmcCard =>
      (sendCmdPoll extCsd.commandReport).1 = 1 ∧
        readDataPoll extCsd.transferReport = 1 ∧ extCsd.sectorcount ≠ 0
  | .byteMode, _ => readBlLen csd < 12

/-- `mmc_read_cardsize` computes the capacity, and succeeds unless there is
none. -/
def ReadsCapacity (cardType : CardType) (csd : BitVec 128)
    (extCsd : ExtendedCsd) (card : CardData) : Prop :=
  Admitted card.mode cardType csd extCsd →
    mmcReadCardsize cardType csd extCsd card =
      (if capacity card.mode cardType csd extCsd = 0 then 0 else 1,
        { card with size := capacity card.mode cardType csd extCsd })

/-- The largest values of all fields that the size is computed from. -/
def Largest (mode : Mode) (cardType : CardType) (csd : BitVec 128) : Prop :=
  match mode, cardType with
  | .sectorMode, .sdCard => sd2CSize csd = 0x3FFFFF
  | .sectorMode, .mmcCard => False
  | .byteMode, _ =>
      cSize csd = 4095 ∧ cSizeMult csd = 7 ∧ readBlLen csd = 11

/-- The product fits into 32 bits unless all its factors are the largest. -/
theorem product_lt_iff {c m b : ℕ} (hc : c < 4096) (hm : m < 8) (hb : b < 12) :
    (c + 1) * 2 ^ (m + 2) * 2 ^ b < 2 ^ 32 ↔ ¬ (c = 4095 ∧ m = 7 ∧ b = 11) := by
  constructor
  · rintro hlt ⟨rfl, rfl, rfl⟩
    exact absurd hlt (by norm_num)
  · intro hnot
    rw [mul_assoc, ← pow_add]
    by_cases hexp : m + 2 + b = 20
    · have hc' : c + 1 < 4096 := by omega
      calc (c + 1) * 2 ^ (m + 2 + b) = (c + 1) * 2 ^ 20 := by rw [hexp]
        _ < 4096 * 2 ^ 20 := Nat.mul_lt_mul_of_pos_right hc' (by norm_num)
        _ = 2 ^ 32 := by norm_num
    · calc (c + 1) * 2 ^ (m + 2 + b) ≤ 4096 * 2 ^ 19 :=
          Nat.mul_le_mul hc (Nat.pow_le_pow_right (by norm_num) (by omega))
        _ < 2 ^ 32 := by norm_num

/-- The two products in 32 bits. -/
theorem product_mod (c m b : ℕ) :
    (c + 1) * 2 ^ (m + 2) % 2 ^ 32 * 2 ^ b % 2 ^ 32 =
      (c + 1) * 2 ^ (m + 2) * 2 ^ b % 2 ^ 32 :=
  Nat.mod_mul_mod ..

/-- The size of a card is the capacity its registers encode exactly if these are
not all at their largest values. -/
theorem readsCapacity_iff (cardType : CardType) (csd : BitVec 128)
    (extCsd : ExtendedCsd) (card : CardData) :
    ReadsCapacity cardType csd extCsd card ↔
      ¬ Largest card.mode cardType csd := by
  obtain ⟨mode, size⟩ := card
  cases mode with
  | byteMode =>
      have hmult : ¬ 8 ≤ cSizeMult csd := not_le.mpr (bits_lt ..)
      have hc : cSize csd < 4096 := bits_lt ..
      unfold ReadsCapacity Admitted mmcReadCardsize capacity Largest
      simp only [cSize_eq, cSizeMult_eq, readBlLen_eq, if_neg hmult,
        Nat.one_shiftLeft, product_mod, mmcsdSectorSize]
      by_cases hlen : 12 ≤ readBlLen csd
      · refine iff_of_true (fun hlt => absurd hlen (not_le.mpr hlt)) ?_
        rintro ⟨-, -, heq⟩
        omega
      · rw [if_neg hlen,
          ← product_lt_iff hc (not_le.mp hmult) (not_le.mp hlen)]
        constructor
        · intro hreads
          by_contra hwrap
          have hlarge : cSize csd = 4095 ∧ cSizeMult csd = 7 ∧
              readBlLen csd = 11 := by
            by_contra hnot
            exact hwrap ((product_lt_iff hc (not_le.mp hmult)
              (not_le.mp hlen)).mpr hnot)
          have hsize := congrArg (fun r => r.2.size) (hreads (not_le.mp hlen))
          rw [hlarge.1, hlarge.2.1, hlarge.2.2] at hsize
          norm_num at hsize
        · intro hfits _
          rw [Nat.mod_eq_of_lt hfits]
  | sectorMode =>
      cases cardType with
      | sdCard =>
          have hc : sd2CSize csd < 2 ^ 22 := bits_lt ..
          unfold ReadsCapacity Admitted mmcReadCardsize capacity Largest
          simp only [sd2CSize_eq]
          constructor
          · intro hreads hlarge
            have hsize := congrArg (fun r => r.2.size) (hreads trivial)
            rw [hlarge] at hsize
            norm_num at hsize
          · intro hnot _
            rw [Nat.mod_eq_of_lt (by omega)]
      | mmcCard =>
          refine iff_of_true ?_ id
          rintro ⟨hcommand, htransfer, hsectors⟩
          unfold mmcReadCardsize capacity
          simp only [hcommand, htransfer, if_neg hsectors, ne_eq,
            not_true_eq_false, if_false]

/-- A byte-addressed card of 4 GiB. -/
theorem not_readsCapacity : ¬ ReadsCapacity .mmcCard
    (BitVec.ofNat 128 (4095 * 2 ^ 62 + 7 * 2 ^ 47 + 11 * 2 ^ 80))
    ⟨[], [], 0⟩ ⟨.byteMode, 0⟩ := by
  intro hreads
  have hadmitted : readBlLen
      (BitVec.ofNat 128 (4095 * 2 ^ 62 + 7 * 2 ^ 47 + 11 * 2 ^ 80)) < 12 := by
    decide
  have hsize := congrArg (fun r => r.2.size) (hreads hadmitted)
  revert hsize
  decide

end TateFirmware.Mmc
