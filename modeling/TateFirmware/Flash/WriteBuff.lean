import Mathlib.Data.Nat.Bitwise
import Mathlib.Data.Nat.Digits.Defs
import Mathlib.Tactic.Ring
import TateFirmware.Support.NorFlash

/-!
# Programming a flash chip

`write_buff` of `drivers/cfi_flash.c` with `CFG_FLASH_USE_BUFFER_WRITE`, on a
little-endian CPU: an unaligned head and tail are programmed as a word, the part
between through the write buffer of the chip, a burst at a time.  A chip takes an
operation that has the bytes of its commands and of its word count where the chip
looks for them.  What it then does is a parameter, and so is whether a chip is
ready that could not take the operation.  A loop that runs out of rounds has no
result.
-/

namespace TateFirmware.Flash

open Support Support.Memory

/-! ## The chip -/

/-- The command sets, `info->vendor`. -/
inductive Vendor where
  | intelStandard
  | intelExtended
  | intelSibley
  | amdStandard
  | amdExtended
deriving DecidableEq

/-- The fields of `flash_info_t` that programming goes by.  The widths and the size
of the buffer are powers of two, and a chip is not wider than the port. -/
structure CfiInfo where
  vendor : Vendor
  portLog : ℕ
  chipLog : ℕ
  bufferLog : ℕ
  port_le : portLog ≤ 3
  chip_le : chipLog ≤ portLog

namespace CfiInfo

variable (info : CfiInfo)

/-- `info->portwidth`. -/
def portwidth : ℕ := 2 ^ info.portLog

/-- `info->chipwidth`. -/
def chipwidth : ℕ := 2 ^ info.chipLog

/-- `info->buffer_size`. -/
def bufferSize : ℕ := 2 ^ info.bufferLog

/-- `buffered_size`. -/
def bufferedSize : ℕ := info.portwidth / info.chipwidth * info.bufferSize

/-- `FLASH_CMD_CLEAR_STATUS` and `FLASH_CMD_WRITE` or `FLASH_CMD_WRITE_S`, or
`AMD_CMD_UNLOCK_START`, `AMD_CMD_UNLOCK_ACK` and `AMD_CMD_WRITE`. -/
def wordCmds : List ℕ :=
  match info.vendor with
  | .intelStandard | .intelExtended => [0x50, 0x40]
  | .intelSibley => [0x50, 0x41]
  | .amdStandard | .amdExtended => [0xAA, 0x55, 0xA0]

/-- `FLASH_CMD_CLEAR_STATUS`, `FLASH_CMD_WRITE_TO_BUFFER` or
`FLASH_CMD_WRITE_TO_BUFFER_S` and `FLASH_CMD_WRITE_BUFFER_CONFIRM`, or
`AMD_CMD_UNLOCK_START`, `AMD_CMD_UNLOCK_ACK`, `AMD_CMD_WRITE_TO_BUFFER` and
`AMD_CMD_WRITE_BUFFER_CONFIRM`. -/
def bufferCmds : List ℕ :=
  match info.vendor with
  | .intelStandard | .intelExtended => [0x50, 0xE8, 0xD0]
  | .intelSibley => [0x50, 0xE9, 0xD0]
  | .amdStandard | .amdExtended => [0xAA, 0x55, 0x25, 0x29]

end CfiInfo

/-- `ERR_TIMOUT`. -/
def errTimout : ℤ := 1

/-- `ERR_NOT_ERASED`. -/
def errNotErased : ℤ := 2

/-! ## Commands -/

/-- A byte that `flash_make_cmd` stores; a shift of the 32 bits of the command by
more of them leaves 0. -/
def cmdByte (chipwidth cmd i : ℕ) : ℕ :=
  if (i + 1) % chipwidth = 0 then cmd % 2 ^ 8 else cmd >>> (8 * (i + 1)) % 2 ^ 8

/-- `flash_make_cmd`.  The bytes are swapped for a little-endian CPU, but not those
for a port of 64 bits. -/
def flashMakeCmd (portwidth chipwidth cmd : ℕ) : List ℕ :=
  let bytes := (List.range portwidth).map (cmdByte chipwidth cmd)
  if portwidth = 8 then bytes else bytes.reverse

/-- What chip `j` of a port takes a command for. -/
def chipSees (portwidth chipwidth cmd j : ℕ) : ℕ :=
  Nat.ofDigits (2 ^ 8)
    (((flashMakeCmd portwidth chipwidth cmd).drop (j * chipwidth)).take chipwidth)

/-- Every chip of a port takes the commands for what they are. -/
def cmdsSeen (portwidth chipwidth : ℕ) (cmds : List ℕ) : Bool :=
  cmds.all fun cmd => (List.range (portwidth / chipwidth)).all fun j =>
    chipSees portwidth chipwidth cmd j = cmd

/-- The word count that is sent for `words` words, `(uchar) words - 1`. -/
def countCmd (words : ℕ) : ℕ := (words % 2 ^ 8 + 2 ^ 32 - 1) % 2 ^ 32

/-- Every chip of a port takes the word count for `words` words for as many as are
sent. -/
def Announces (info : CfiInfo) (words sent : ℕ) : Prop :=
  ∀ j < info.portwidth / info.chipwidth,
    chipSees info.portwidth info.chipwidth (countCmd words) j + 1 = sent

instance (info : CfiInfo) (words sent : ℕ) : Decidable (Announces info words sent) :=
  inferInstanceAs (Decidable (∀ j < _, _))

/-! ## Operations -/

/-- What a chip does with a program operation that it takes. -/
inductive ChipOutcome where
  | programs
  /-- It leaves the flash as it is and is ready. -/
  | refuses
  | timesOut
deriving DecidableEq

/-- What a chip does with each program operation, and whether it is ready behind an
operation that it cannot take. -/
structure Chip where
  outcome : ℕ → ChipOutcome
  ready : ℕ → Bool

/-- The flash, the program operations so far, and how far the source has been
read. -/
structure Writing where
  flash : Memory UInt8
  ops : ℕ
  srcRead : ℕ

/-- The source is read up to `stop`. -/
def Writing.read (w : Writing) (stop : ℕ) : Writing :=
  { w with srcRead := max w.srcRead stop }

section Chip

variable (info : CfiInfo) (chip : Chip)

/-- A program operation and `flash_full_status_check`, which looks at the error bits
of a chip only where it has timed out. -/
def chipProgram (taken : Bool) (dest : ℕ) (bytes : List UInt8) (w : Writing) :
    ℤ × Writing :=
  let next := { w with ops := w.ops + 1 }
  if taken then
    match chip.outcome w.ops with
    | .programs => (0, { next with flash := w.flash.program dest bytes })
    | .refuses => (0, next)
    | .timesOut => (errTimout, next)
  else (if chip.ready w.ops then 0 else errTimout, next)

/-! ## Words -/

/-- `flash_add_byte`. -/
def flashAddByte (cword : ℕ) (c : UInt8) : ℕ :=
  if info.portwidth = 1 then c.toNat
  else cword >>> 8 ||| c.toNat <<< (8 * (info.portwidth - 1))

/-- The bytes of a word in memory. -/
def wordBytes (width cword : ℕ) : List UInt8 :=
  (List.range width).map fun i => UInt8.ofNat (cword >>> (8 * i))

/-- `flash_write_cfiword`. -/
def flashWriteCfiword (dest cword : ℕ) (w : Writing) : ℤ × Writing :=
  let bytes := wordBytes info.portwidth cword
  if ∀ k (_ : k < bytes.length), w.flash (dest + k) &&& bytes[k] = bytes[k] then
    chipProgram chip (cmdsSeen info.portwidth info.chipwidth info.wordCmds) dest bytes
      w
  else (errNotErased, w)

/-- The bytes added to a word one after the other. -/
def wordOf (bytes : List UInt8) : ℕ := bytes.foldl (flashAddByte info) 0

/-! ## Bursts -/

/-- The words of a burst, with one more for a tail. -/
def burstWords (len : ℕ) : ℕ :=
  len / info.portwidth + if len % info.portwidth = 0 then 0 else 1

/-- The words of zeros a burst to a Sibley chip is filled up with. -/
def fillWords (len : ℕ) : ℕ :=
  info.bufferedSize / info.portwidth - burstWords info len

/-- The number of words that a burst is announced with. -/
def announcedWords (len : ℕ) : ℕ :=
  match info.vendor with
  | .intelStandard | .intelExtended => burstWords info len
  | .intelSibley => info.bufferedSize / info.portwidth
  | .amdStandard | .amdExtended => len / info.portwidth

/-- The number of words of a burst that are sent. -/
def sentWords (len : ℕ) : ℕ :=
  match info.vendor with
  | .intelStandard | .intelExtended => burstWords info len
  | .intelSibley => burstWords info len + fillWords info len
  | .amdStandard | .amdExtended => len / info.portwidth

/-- Every chip takes the word count of a burst for as many words as are sent. -/
def CountFits (len : ℕ) : Prop :=
  Announces info (announcedWords info len) (sentWords info len)

instance (len : ℕ) : Decidable (CountFits info len) :=
  inferInstanceAs (Decidable (Announces _ _ _))

/-- Every chip takes the commands and the word count of a burst. -/
def burstTaken (len : ℕ) : Bool :=
  cmdsSeen info.portwidth info.chipwidth info.bufferCmds && decide (CountFits info len)

/-- `flash_write_cfibuffer`, with the source from offset `off` on. -/
def flashWriteCfibuffer (src : Memory UInt8) (dest off len : ℕ) (w : Writing) :
    ℤ × Writing :=
  let port := info.portwidth
  let words := burstWords info len
  let taken := burstTaken info len
  match info.vendor with
  | .intelStandard | .intelExtended =>
      chipProgram chip taken dest (src.read off (words * port))
        (w.read (off + words * port))
  | .intelSibley =>
      chipProgram chip taken dest
        (src.read off (words * port) ++ List.replicate (fillWords info len * port) 0)
        (w.read (off + words * port))
  | .amdStandard | .amdExtended =>
      chipProgram chip taken dest (src.read off (len / port * port))
        (w.read (off + len / port * port))

/-! ## `write_buff` -/

/-- How the loop over the aligned part stands: still running, left with an error,
or left with what remains. -/
inductive Aligned where
  | running
  | failed (rc : ℤ) (w : Writing)
  | left (wp off cnt : ℕ) (w : Writing)

/-- The length of the next burst: to the next boundary of the buffer. -/
def burstLength (wp cnt : ℕ) : ℕ :=
  min (info.bufferedSize - wp % info.bufferedSize) cnt

/-- The loop over the aligned part. -/
def alignedLoop (src : Memory UInt8) : ℕ → ℕ → ℕ → ℕ → Writing → Aligned
  | 0, _, _, _, _ => .running
  | rounds + 1, wp, off, cnt, w =>
      let port := info.portwidth
      if port ≤ cnt then
        if info.bufferSize = 1 then
          match flashWriteCfiword info chip wp (wordOf info (src.read off port))
            (w.read (off + port)) with
          | (rc, w) =>
              if rc ≠ 0 then .failed rc w
              else alignedLoop src rounds (wp + port) (off + port) (cnt - port) w
        else
          let i := burstLength info wp cnt
          match flashWriteCfibuffer info chip src wp off i w with
          | (rc, w) =>
              if rc ≠ 0 then .failed rc w
              else
                let i := i - i % port
                alignedLoop src rounds (wp + i) (off + i) (cnt - i) w
      else .left wp off cnt w

attribute [grind =] alignedLoop

/-- The tail. -/
def writeTail (src : Memory UInt8) (wp off cnt : ℕ) (w : Writing) : ℤ × Writing :=
  if cnt = 0 then (0, w)
  else
    flashWriteCfiword info chip wp
      (wordOf info (src.read off cnt ++ w.flash.read (wp + cnt) (info.portwidth - cnt)))
      (w.read (off + cnt))

/-- The aligned part and the tail. -/
def writeAligned (src : Memory UInt8) (rounds wp off cnt : ℕ) (w : Writing) :
    Option (ℤ × Writing) :=
  match alignedLoop info chip src rounds wp off cnt w with
  | .running => none
  | .failed rc w => some (rc, w)
  | .left wp off cnt w => some (writeTail info chip src wp off cnt w)

/-- The bytes of the unaligned head that come from the source. -/
def headBytes (addr cnt : ℕ) : ℕ :=
  if addr % info.portwidth = 0 then 0
  else min (info.portwidth - addr % info.portwidth) cnt

/-- The aligned address behind the head. -/
def headEnd (addr : ℕ) : ℕ :=
  if addr % info.portwidth = 0 then addr
  else addr - addr % info.portwidth + info.portwidth

/-- The word at the head. -/
def headWord (src flash : Memory UInt8) (addr cnt : ℕ) : List UInt8 :=
  let aln := addr % info.portwidth
  let head := headBytes info addr cnt
  flash.read (addr - aln) aln ++ src.read 0 head ++
    flash.read (addr + head) (info.portwidth - aln - head)

/-- `write_buff`. -/
def writeBuff (src flash : Memory UInt8) (addr cnt rounds : ℕ) :
    Option (ℤ × Writing) :=
  let w : Writing := ⟨flash, 0, 0⟩
  let head := headBytes info addr cnt
  if addr % info.portwidth ≠ 0 then
    match flashWriteCfiword info chip (addr - addr % info.portwidth)
      (wordOf info (headWord info src flash addr cnt)) (w.read head) with
    | (rc, w) =>
        if rc ≠ 0 then some (rc, w)
        else writeAligned info chip src rounds (headEnd info addr) head (cnt - head) w
  else writeAligned info chip src rounds addr 0 cnt w

end Chip

/-! ## What the call should do -/

/-- A call that returns 0 leaves the source at `addr`, and every other byte as it
was, and has read no more than `cnt` bytes of the source. -/
def Copied (src flash : Memory UInt8) (addr cnt : ℕ) (run : Option (ℤ × Writing)) :
    Prop :=
  ∀ w, run = some (0, w) →
    (∀ k < cnt, w.flash (addr + k) = src k) ∧
      (∀ k, k < addr ∨ addr + cnt ≤ k → w.flash k = flash k) ∧ w.srcRead ≤ cnt

/-- With every chip, or every one that refuses nothing or is not ready behind an
operation it cannot take, the call is right whatever the source is and whatever is
in the flash around the range. -/
def WritesRight (info : CfiInfo) (mayRefuse mayPass : Prop) (addr cnt : ℕ) : Prop :=
  ∀ (chip : Chip) (src flash : Memory UInt8) (rounds : ℕ),
    (¬ mayRefuse → ∀ n, chip.outcome n ≠ .refuses) →
      (¬ mayPass → ∀ n, chip.ready n = false) →
        (∀ k < cnt, flash (addr + k) = 0xFF) →
          Copied src flash addr cnt (writeBuff info chip src flash addr cnt rounds)

/-- The lengths of the bursts of the aligned part. -/
def bursts (info : CfiInfo) : ℕ → ℕ → ℕ → List ℕ
  | 0, _, _ => []
  | rounds + 1, wp, cnt =>
      if info.portwidth ≤ cnt ∧ info.bufferSize ≠ 1 then
        let i := burstLength info wp cnt
        i :: bursts info rounds (wp + (i - i % info.portwidth))
          (cnt - (i - i % info.portwidth))
      else []

/-- A burst of the call. -/
def IsBurst (info : CfiInfo) (addr cnt len : ℕ) : Prop :=
  ∃ rounds, len ∈ bursts info rounds (headEnd info addr)
    (cnt - headBytes info addr cnt)

/-- A burst that has the bytes that it should have: whole words, to a Sibley chip the
whole buffer. -/
def BurstOk (info : CfiInfo) (len : ℕ) : Prop :=
  match info.vendor with
  | .intelStandard | .intelExtended => len % info.portwidth = 0
  | .intelSibley => len = info.bufferedSize
  | .amdStandard | .amdExtended => True

/-- Commands reach the chips: `flash_make_cmd` swaps their bytes, or the chips look at
one byte only. -/
def CmdsReach (info : CfiInfo) : Prop := info.portwidth ≠ 8 ∨ info.chipwidth = 1

/-- The chips cannot take an operation of the call. -/
def Garbled (info : CfiInfo) (addr cnt : ℕ) : Prop :=
  ¬ CmdsReach info ∧ cnt ≠ 0 ∨ ∃ len, IsBurst info addr cnt len ∧ ¬ CountFits info len

/-- The buffer holds no word of the port, and there is a word to be written: every
burst leaves as much as it has found. -/
def NeverEnds (info : CfiInfo) (addr cnt : ℕ) : Prop :=
  info.bufferedSize < info.portwidth ∧ info.bufferSize ≠ 1 ∧
    info.portwidth ≤ cnt - headBytes info addr cnt

/-- The call never returns 0, or it has nothing to write or no refusal to fear, the
chips can take all of it, and every burst has the bytes that it should have. -/
def WritesSafely (info : CfiInfo) (mayRefuse mayPass : Prop) (addr cnt : ℕ) : Prop :=
  NeverEnds info addr cnt ∨ ¬ mayPass ∧ Garbled info addr cnt ∨
    (mayRefuse → cnt = 0) ∧ ¬ Garbled info addr cnt ∧
      ∀ len, IsBurst info addr cnt len → BurstOk info len

/-! ## The bytes of a word -/

variable {info : CfiInfo}

theorem flashAddByte_eq {cword : ℕ} (c : UInt8)
    (hcword : cword < 2 ^ (8 * info.portwidth)) :
    flashAddByte info cword c = 2 ^ (8 * (info.portwidth - 1)) * c.toNat + cword / 2 ^ 8 := by
  rw [flashAddByte]
  split
  · rename_i hone
    rw [hone] at hcword ⊢
    rw [Nat.div_eq_of_lt hcword]
    simp
  · have hpos : 0 < info.portwidth := Nat.two_pow_pos _
    have hlow : cword / 2 ^ 8 < 2 ^ (8 * (info.portwidth - 1)) := by
      rw [Nat.div_lt_iff_lt_mul (by decide), ← pow_add]
      rwa [show 8 * (info.portwidth - 1) + 8 = 8 * info.portwidth by omega]
    rw [Nat.two_pow_add_eq_or_of_lt hlow, Nat.shiftRight_eq_div_pow,
      Nat.shiftLeft_eq, Nat.mul_comm c.toNat, Nat.or_comm]

/-- A byte added to a word moves the others down. -/
theorem wordBytes_flashAddByte {cword : ℕ} (c : UInt8)
    (hcword : cword < 2 ^ (8 * info.portwidth)) :
    flashAddByte info cword c < 2 ^ (8 * info.portwidth) ∧
      wordBytes info.portwidth (flashAddByte info cword c) =
        (wordBytes info.portwidth cword).drop 1 ++ [c] := by
  have hpos : 0 < info.portwidth := Nat.two_pow_pos _
  have hc := c.toNat_lt
  obtain ⟨n, hn⟩ : ∃ n, info.portwidth = n + 1 := ⟨info.portwidth - 1, by omega⟩
  rw [hn, Nat.mul_succ] at hcword
  rw [flashAddByte_eq c (by rwa [hn]), hn, Nat.add_sub_cancel]
  have hlow : cword / 2 ^ 8 < 2 ^ (8 * n) := by
    rw [Nat.div_lt_iff_lt_mul (by decide), ← pow_add]
    exact hcword
  refine ⟨?_, ?_⟩
  · rw [Nat.mul_succ, pow_add]
    calc
      2 ^ (8 * n) * c.toNat + cword / 2 ^ 8 < 2 ^ (8 * n) * c.toNat + 2 ^ (8 * n) := by
        omega
      _ = 2 ^ (8 * n) * (c.toNat + 1) := (Nat.mul_succ ..).symm
      _ ≤ 2 ^ (8 * n) * 2 ^ 8 := Nat.mul_le_mul_left _ (by omega)
  · apply List.ext_getElem (by simp [wordBytes])
    intro i hi _
    simp only [wordBytes, List.length_map, List.length_range] at hi
    simp only [wordBytes, List.getElem_map, List.getElem_range]
    apply UInt8.toNat_inj.mp
    rw [UInt8.toNat_ofNat', Nat.shiftRight_eq_div_pow]
    rcases Nat.lt_succ_iff_lt_or_eq.mp hi with hlt | rfl
    · rw [List.getElem_append_left (by simpa using hlt)]
      simp only [List.getElem_drop, List.getElem_map, List.getElem_range]
      rw [UInt8.toNat_ofNat', Nat.shiftRight_eq_div_pow]
      have hsplit : 2 ^ (8 * n) * c.toNat =
          2 ^ (8 * i) * (2 ^ 8 * (2 ^ (8 * (n - 1 - i)) * c.toNat)) := by
        rw [← Nat.mul_assoc, ← Nat.mul_assoc, ← pow_add, ← pow_add]
        congr 2
        omega
      rw [hsplit, Nat.mul_add_div (Nat.two_pow_pos _), Nat.mul_add_mod,
        Nat.div_div_eq_div_mul, ← pow_add]
      congr 3
      omega
    · rw [List.getElem_append_right (by simp)]
      simp only [List.length_drop, List.length_map, List.length_range,
        Nat.add_sub_cancel, Nat.sub_self, List.getElem_cons_zero]
      rw [Nat.mul_add_div (Nat.two_pow_pos _), Nat.div_eq_of_lt hlow, Nat.add_zero,
        Nat.mod_eq_of_lt hc]

/-- The bytes added last are the bytes of the word. -/
theorem wordBytes_foldl (bytes : List UInt8) {cword : ℕ}
    (hcword : cword < 2 ^ (8 * info.portwidth)) :
    wordBytes info.portwidth (bytes.foldl (flashAddByte info) cword) =
      (wordBytes info.portwidth cword ++ bytes).drop bytes.length := by
  induction bytes generalizing cword with
  | nil => simp
  | cons c bytes ih =>
      obtain ⟨hlt, hbytes⟩ := wordBytes_flashAddByte c hcword
      have hpos : 1 ≤ (wordBytes info.portwidth cword).length := by
        simp only [wordBytes, List.length_map, List.length_range]
        exact Nat.two_pow_pos _
      rw [List.foldl_cons, ih hlt, hbytes, List.length_cons, Nat.add_comm,
        ← List.drop_drop, List.drop_append_of_le_length hpos, List.append_assoc,
        List.singleton_append]

theorem wordBytes_wordOf {bytes : List UInt8} (hlen : bytes.length = info.portwidth) :
    wordBytes info.portwidth (wordOf info bytes) = bytes := by
  rw [wordOf, wordBytes_foldl bytes (Nat.two_pow_pos _)]
  exact List.drop_left' (by simp [wordBytes, hlen])

/-! ## Commands that reach the chips -/

/-- The commands of a program operation are taken exactly where they reach the
chips. -/
theorem cmdsSeen_iff (info : CfiInfo) :
    (cmdsSeen info.portwidth info.chipwidth info.wordCmds = true ↔ CmdsReach info) ∧
      (cmdsSeen info.portwidth info.chipwidth info.bufferCmds = true ↔
        CmdsReach info) := by
  have hall : ∀ p ≤ 3, ∀ c ≤ p, ∀ cmds ∈ [[0x50, 0x40], [0x50, 0x41],
      [0xAA, 0x55, 0xA0], [0x50, 0xE8, 0xD0], [0x50, 0xE9, 0xD0],
      [0xAA, 0x55, 0x25, 0x29]],
        (cmdsSeen (2 ^ p) (2 ^ c) cmds = true ↔ 2 ^ p ≠ 8 ∨ 2 ^ c = 1) := by
    decide +kernel
  have hinfo := hall info.portLog info.port_le info.chipLog info.chip_le
  refine ⟨hinfo info.wordCmds ?_, hinfo info.bufferCmds ?_⟩
  · unfold CfiInfo.wordCmds
    cases info.vendor <;> decide
  · unfold CfiInfo.bufferCmds
    cases info.vendor <;> decide

theorem burstTaken_iff {len : ℕ} :
    burstTaken info len = true ↔ CmdsReach info ∧ CountFits info len := by
  rw [burstTaken, Bool.and_eq_true, (cmdsSeen_iff info).2, decide_eq_true_eq]

/-! ## One operation -/

variable {chip : Chip}

theorem errTimout_ne_zero : errTimout ≠ 0 := by decide

/-- An operation that is taken and not refused is done when it is reported as
done. -/
theorem chipProgram_ok {taken : Bool} {dest : ℕ} {bytes : List UInt8} {w : Writing}
    (htaken : taken = true) (hchip : chip.outcome w.ops ≠ .refuses)
    (h : (chipProgram chip taken dest bytes w).1 = 0) :
    (chipProgram chip taken dest bytes w).2 =
      { w with ops := w.ops + 1, flash := w.flash.program dest bytes } := by
  simp only [chipProgram, if_pos htaken] at h ⊢
  cases hout : chip.outcome w.ops with
  | programs => rfl
  | refuses => exact absurd hout hchip
  | timesOut =>
      rw [hout] at h
      exact absurd h errTimout_ne_zero

/-- An operation that is not taken is reported as done by a chip that is ready. -/
theorem chipProgram_taken {taken : Bool} {dest : ℕ} {bytes : List UInt8} {w : Writing}
    (hready : chip.ready w.ops = false)
    (h : (chipProgram chip taken dest bytes w).1 = 0) : taken = true := by
  by_contra htaken
  simp only [chipProgram, if_neg htaken, hready, if_neg Bool.false_ne_true] at h
  exact absurd h errTimout_ne_zero

/-- A chip that does not time out has nothing to report, as long as it takes what it
is sent or is ready all the same. -/
theorem chipProgram_passes {taken : Bool} {dest : ℕ} {bytes : List UInt8}
    {w : Writing} (htaken : taken = true ∨ ∀ n, chip.ready n = true)
    (hchip : chip.outcome w.ops ≠ .timesOut) :
    (chipProgram chip taken dest bytes w).1 = 0 := by
  simp only [chipProgram]
  cases taken with
  | true =>
      rw [if_pos rfl]
      cases hout : chip.outcome w.ops with
      | programs => rfl
      | refuses => rfl
      | timesOut => exact absurd hout hchip
  | false =>
      rw [if_neg Bool.false_ne_true]
      exact if_pos (htaken.resolve_left Bool.false_ne_true _)

/-- Programming leaves the flash or clears bits from `dest` on. -/
theorem chipProgram_flash (chip : Chip) (taken : Bool) (dest : ℕ) (bytes : List UInt8)
    (w : Writing) :
    ((chipProgram chip taken dest bytes w).2.flash = w.flash ∨
      (chipProgram chip taken dest bytes w).2.flash = w.flash.program dest bytes) ∧
      (chipProgram chip taken dest bytes w).2.srcRead = w.srcRead := by
  simp only [chipProgram]
  cases taken with
  | true =>
      rw [if_pos rfl]
      cases chip.outcome w.ops with
      | programs => exact ⟨.inr rfl, rfl⟩
      | refuses => exact ⟨.inl rfl, rfl⟩
      | timesOut => exact ⟨.inl rfl, rfl⟩
  | false => exact ⟨.inl rfl, rfl⟩

/-- An operation that is not taken, or refused, leaves the flash as it is. -/
theorem chipProgram_idle {taken : Bool} {dest : ℕ} {bytes : List UInt8} {w : Writing}
    (hidle : taken = false ∨ chip.outcome w.ops = .refuses) :
    (chipProgram chip taken dest bytes w).2.flash = w.flash := by
  simp only [chipProgram]
  cases taken with
  | true => rw [if_pos rfl, hidle.resolve_left nofun]
  | false => rfl

/-- A word the flash cannot take is not sent. -/
theorem flashWriteCfiword_wordOf {bytes : List UInt8}
    (hlen : bytes.length = info.portwidth) (dest : ℕ) (w : Writing) :
    flashWriteCfiword info chip dest (wordOf info bytes) w =
      if ∀ k (_ : k < bytes.length), w.flash (dest + k) &&& bytes[k] = bytes[k] then
        chipProgram chip (cmdsSeen info.portwidth info.chipwidth info.wordCmds) dest
          bytes w
      else (errNotErased, w) := by
  simp only [flashWriteCfiword, wordBytes_wordOf hlen]

/-- A word leaves the flash or stands there. -/
theorem flashWriteCfiword_flash (info : CfiInfo) (chip : Chip)
    {bytes : List UInt8} (dest : ℕ) (w : Writing)
    (hlen : bytes.length = info.portwidth) :
    ((flashWriteCfiword info chip dest (wordOf info bytes) w).2.flash = w.flash ∨
      (flashWriteCfiword info chip dest (wordOf info bytes) w).2.flash =
        w.flash.copyIn dest bytes) ∧
      (flashWriteCfiword info chip dest (wordOf info bytes) w).2.srcRead =
        w.srcRead := by
  rw [flashWriteCfiword_wordOf hlen]
  split
  · rename_i htakes
    rw [← Memory.program_eq_copyIn htakes]
    exact chipProgram_flash chip _ dest bytes w
  · exact ⟨.inl rfl, rfl⟩

/-- The chip does nothing with a word. -/
def WordsIdle (info : CfiInfo) (chip : Chip) : Prop :=
  ¬ CmdsReach info ∨ ∀ n, chip.outcome n = .refuses

theorem flashWriteCfiword_idle {bytes : List UInt8} {dest : ℕ} {w : Writing}
    (hidle : WordsIdle info chip) (hlen : bytes.length = info.portwidth) :
    (flashWriteCfiword info chip dest (wordOf info bytes) w).2.flash = w.flash := by
  rw [flashWriteCfiword_wordOf hlen]
  split
  · refine chipProgram_idle (hidle.imp (fun h => ?_) fun h => h _)
    rwa [← Bool.not_eq_true, (cmdsSeen_iff info).1]
  · rfl

theorem flashWriteCfiword_taken {cword dest : ℕ} {w : Writing}
    (hready : ∀ n, chip.ready n = false)
    (h : (flashWriteCfiword info chip dest cword w).1 = 0) : CmdsReach info := by
  rw [flashWriteCfiword] at h
  split at h
  · exact (cmdsSeen_iff info).1.mp (chipProgram_taken (hready _) h)
  · exact absurd h (by simp [errNotErased])

/-- The chips take the operations of a call, and refuse none. -/
def Serves (info : CfiInfo) (chip : Chip) : Prop :=
  CmdsReach info ∧ ∀ n, chip.outcome n ≠ .refuses

/-- A word reported as written stands in the flash. -/
theorem flashWriteCfiword_ok {bytes : List UInt8} {dest : ℕ} {w : Writing}
    (hlen : bytes.length = info.portwidth) (hserves : Serves info chip)
    (h : (flashWriteCfiword info chip dest (wordOf info bytes) w).1 = 0) :
    (flashWriteCfiword info chip dest (wordOf info bytes) w).2 =
      { w with ops := w.ops + 1, flash := w.flash.copyIn dest bytes } := by
  rw [flashWriteCfiword_wordOf hlen] at h ⊢
  split at h
  · rename_i htakes
    rw [if_pos htakes, ← Memory.program_eq_copyIn htakes]
    exact chipProgram_ok ((cmdsSeen_iff info).1.mpr hserves.1) (hserves.2 _) h
  · exact absurd h (by simp [errNotErased])

/-! ## What has been written so far -/

/-- `done` bytes of the source stand in the flash, and no more have been read. -/
def Progress (src flash : Memory UInt8) (addr done : ℕ) (w : Writing) : Prop :=
  w.flash = flash.copyIn addr (src.read 0 done) ∧ w.srcRead ≤ done

variable {src flash : Memory UInt8} {addr cnt : ℕ}

theorem progress_zero (ops : ℕ) : Progress src flash addr 0 ⟨flash, ops, 0⟩ :=
  ⟨(copyIn_nil flash addr).symm, le_rfl⟩

/-- The bytes behind those done stand there too. -/
theorem Progress.add {done n ops : ℕ} {w : Writing}
    (h : Progress src flash addr done w) :
    Progress src flash addr (done + n)
      ⟨w.flash.copyIn (addr + done) (src.read done n), ops,
        max w.srcRead (done + n)⟩ := by
  refine ⟨?_, by have := h.2; simp only; omega⟩
  have happend := copyIn_append flash addr (src.read 0 done) (src.read (0 + done) n)
  rw [read_length, ← read_add, Nat.zero_add] at happend
  rw [← happend, h.1]

/-- Behind the bytes done the flash is as it was. -/
theorem Progress.behind {done k : ℕ} {w : Writing}
    (h : Progress src flash addr done w) (hk : addr + done ≤ k) :
    w.flash k = flash k := by
  rw [h.1]
  exact copyIn_of_ge (by rwa [read_length])

theorem copyIn_read (m : Memory UInt8) (p n : ℕ) : m.copyIn p (m.read p n) = m := by
  rw [← Memory.program_eq_copyIn, Memory.program_read]
  intro k hk
  rw [read_getElem, UInt8.and_self]

/-- Bytes written back in front of and behind some of the source. -/
theorem copyIn_around (m : Memory UInt8) (p before after : ℕ) (bytes : List UInt8) :
    m.copyIn p (m.read p before ++ bytes ++
        m.read (p + before + bytes.length) after) =
      m.copyIn (p + before) bytes := by
  rw [← copyIn_append, ← copyIn_append, copyIn_read, read_length, List.length_append,
    read_length, ← Nat.add_assoc]
  have hafter : m.read (p + before + bytes.length) after =
      (m.copyIn (p + before) bytes).read (p + before + bytes.length) after := by
    refine read_congr fun k hk => (copyIn_of_ge ?_).symm
    omega
  rw [hafter, copyIn_read]

/-- The flash and the source are as they should be exactly when all is done. -/
theorem copied_iff {run : Option (ℤ × Writing)} :
    Copied src flash addr cnt run ↔
      ∀ w, run = some (0, w) → Progress src flash addr cnt w := by
  refine forall_congr' fun w => forall_congr' fun _ => ?_
  constructor
  · rintro ⟨hinside, houtside, hread⟩
    refine ⟨funext fun p => ?_, hread⟩
    by_cases hlow : p < addr
    · rw [houtside p (.inl hlow), copyIn_of_lt _ hlow]
    · obtain ⟨k, rfl⟩ := Nat.exists_eq_add_of_le (not_lt.mp hlow)
      by_cases hk : k < cnt
      · rw [hinside k hk, copyIn_add (by rwa [read_length]), read_getElem, Nat.zero_add]
      · rw [houtside _ (.inr (by omega)), copyIn_of_ge (by rw [read_length]; omega)]
  · rintro ⟨hflash, hread⟩
    refine ⟨fun k hk => ?_, fun k hk => ?_, hread⟩
    · rw [hflash, copyIn_add (by rwa [read_length]), read_getElem, Nat.zero_add]
    · rw [hflash]
      rcases hk with hlt | hge
      · exact copyIn_of_lt _ hlt
      · exact copyIn_of_ge (by rwa [read_length])

/-! ## A burst -/

theorem bufferedSize_eq (info : CfiInfo) :
    info.bufferedSize = 2 ^ (info.portLog - info.chipLog + info.bufferLog) := by
  rw [CfiInfo.bufferedSize, CfiInfo.portwidth, CfiInfo.chipwidth, CfiInfo.bufferSize,
    Nat.pow_div info.chip_le (by decide), pow_add]

theorem portwidth_pos (info : CfiInfo) : 0 < info.portwidth := Nat.two_pow_pos _

theorem bufferedSize_pos (info : CfiInfo) : 0 < info.bufferedSize := by
  rw [bufferedSize_eq]
  exact Nat.two_pow_pos _

theorem portwidth_dvd (h : info.portwidth ≤ info.bufferedSize) :
    info.portwidth ∣ info.bufferedSize := by
  rw [bufferedSize_eq, CfiInfo.portwidth] at h ⊢
  exact Nat.pow_dvd_pow 2 ((Nat.pow_le_pow_iff_right (by decide)).mp h)

/-- What a burst adds to the flash when it is programmed as it should be. -/
theorem flashWriteCfibuffer_ok {dest off len : ℕ} {w : Writing}
    (hport : info.portwidth ≤ info.bufferedSize) (hserves : Serves info chip)
    (hcount : CountFits info len) (hok : BurstOk info len)
    (h : (flashWriteCfibuffer info chip src dest off len w).1 = 0) :
    (flashWriteCfibuffer info chip src dest off len w).2 =
      ⟨w.flash.program dest (src.read off (len - len % info.portwidth)), w.ops + 1,
        max w.srcRead (off + (len - len % info.portwidth))⟩ := by
  have htaken := burstTaken_iff.mpr ⟨hserves.1, hcount⟩
  have hwhole : len / info.portwidth * info.portwidth = len - len % info.portwidth := by
    rw [Nat.mul_comm]
    have := Nat.div_add_mod len info.portwidth
    omega
  simp only [flashWriteCfibuffer] at h ⊢
  cases hvendor : info.vendor with
  | intelStandard | intelExtended =>
      simp only [BurstOk, hvendor] at hok h ⊢
      have hwords : burstWords info len = len / info.portwidth := by
        rw [burstWords, if_pos hok, Nat.add_zero]
      rw [hwords, hwhole] at h ⊢
      rw [chipProgram_ok htaken (hserves.2 _) h]
      rfl
  | intelSibley =>
      simp only [BurstOk, hvendor] at hok h ⊢
      subst hok
      have hmod := Nat.mod_eq_zero_of_dvd (portwidth_dvd hport)
      have hwords : burstWords info info.bufferedSize =
          info.bufferedSize / info.portwidth := by
        rw [burstWords, if_pos hmod, Nat.add_zero]
      rw [fillWords, hwords, Nat.sub_self, Nat.zero_mul, List.replicate_zero,
        List.append_nil, hwhole] at h ⊢
      rw [chipProgram_ok htaken (hserves.2 _) h]
      rfl
  | amdStandard | amdExtended =>
      simp only [hvendor] at h ⊢
      rw [hwhole] at h ⊢
      rw [chipProgram_ok htaken (hserves.2 _) h]
      rfl

/-- A burst that is not taken is reported as done by a chip that is ready. -/
theorem flashWriteCfibuffer_taken {dest off len : ℕ} {w : Writing}
    (hready : ∀ n, chip.ready n = false)
    (h : (flashWriteCfibuffer info chip src dest off len w).1 = 0) :
    burstTaken info len = true := by
  simp only [flashWriteCfibuffer] at h
  cases hvendor : info.vendor with
  | intelStandard | intelExtended | intelSibley | amdStandard | amdExtended =>
      simp only [hvendor] at h
      exact chipProgram_taken (hready _) h

/-- A burst into erased flash. -/
theorem Progress.burst {done n : ℕ} {w : Writing}
    (h : Progress src flash addr done w)
    (herased : ∀ k < cnt, flash (addr + k) = 0xFF) (hn : done + n ≤ cnt) :
    w.flash.program (addr + done) (src.read done n) =
      w.flash.copyIn (addr + done) (src.read done n) := by
  refine Memory.program_eq_copyIn fun k hk => ?_
  rw [read_length] at hk
  rw [h.behind (by omega), Nat.add_assoc, herased _ (by omega)]
  exact UInt8.neg_one_and

/-! ## The loop -/

theorem bursts_one (hone : info.bufferSize = 1) (rounds wp c : ℕ) :
    bursts info rounds wp c = [] := by
  cases rounds with
  | zero => rfl
  | succ rounds => exact if_neg fun h => h.2 hone

theorem burstLength_le (info : CfiInfo) (wp cnt : ℕ) :
    burstLength info wp cnt ≤ cnt ∧ burstLength info wp cnt ≤ info.bufferedSize :=
  ⟨Nat.min_le_right .., (Nat.min_le_left ..).trans (Nat.sub_le ..)⟩

/-- What the loop is left with for an error is not 0. -/
theorem alignedLoop_failed {src : Memory UInt8} {rounds wp off c : ℕ} {w : Writing}
    {rc : ℤ} {w' : Writing}
    (h : alignedLoop info chip src rounds wp off c w = .failed rc w') : rc ≠ 0 := by
  induction rounds generalizing wp off c w with
  | zero => cases h
  | succ rounds ih =>
      simp only [alignedLoop] at h
      split at h
      · split at h
        · split at h
          · rename_i hrc
            cases h
            exact hrc
          · exact ih h
        · split at h
          · rename_i hrc
            cases h
            exact hrc
          · exact ih h
      · cases h

/-- A buffer that holds no word of the port keeps the loop from being left. -/
theorem alignedLoop_stuck {src : Memory UInt8}
    (hport : info.bufferedSize < info.portwidth) (hbuffer : info.bufferSize ≠ 1)
    {rounds wp off c : ℕ} (hc : info.portwidth ≤ c) {w : Writing}
    {wp' off' c' : ℕ} {w' : Writing} :
    alignedLoop info chip src rounds wp off c w ≠ .left wp' off' c' w' := by
  induction rounds generalizing w with
  | zero => exact fun h => nomatch h
  | succ rounds ih =>
      have hzero : burstLength info wp c - burstLength info wp c % info.portwidth = 0 := by
        have hle := (burstLength_le info wp c).2
        rw [Nat.mod_eq_of_lt (by omega), Nat.sub_self]
      simp only [alignedLoop, if_pos hc, if_neg hbuffer, hzero, Nat.add_zero,
        Nat.sub_zero]
      split
      · exact fun h => nomatch h
      · exact ih

/-- The loop leaves behind what it has passed. -/
theorem alignedLoop_progress
    (hserves : Serves info chip)
    (herased : ∀ k < cnt, flash (addr + k) = 0xFF) {rounds off c : ℕ} {w : Writing}
    (hc : off + c = cnt)
    (hport : info.portwidth ≤ c →
      info.bufferSize = 1 ∨ info.portwidth ≤ info.bufferedSize)
    (hbursts : ∀ len ∈ bursts info rounds (addr + off) c,
      CountFits info len ∧ BurstOk info len)
    (hw : Progress src flash addr off w) {wp' off' c' : ℕ} {w' : Writing}
    (hleft : alignedLoop info chip src rounds (addr + off) off c w =
      .left wp' off' c' w') :
    wp' = addr + off' ∧ off' + c' = cnt ∧ c' < info.portwidth ∧
      Progress src flash addr off' w' := by
  induction rounds generalizing off c w with
  | zero => cases hleft
  | succ rounds ih =>
      simp only [alignedLoop] at hleft
      split at hleft
      · rename_i hword
        split at hleft
        · split at hleft
          · cases hleft
          · rename_i hone hrc
            rw [flashWriteCfiword_ok (read_length ..) hserves (not_not.mp hrc),
              Nat.add_assoc] at hleft
            refine ih (by omega) (fun _ => .inl hone) ?_ hw.add hleft
            rw [bursts_one hone]
            exact List.forall_mem_nil _
        · rename_i hone
          split at hleft
          · cases hleft
          · rename_i hrc
            simp only [bursts, if_pos (And.intro hword hone), List.forall_mem_cons]
              at hbursts
            have hle := (burstLength_le info (addr + off) c).1
            rw [flashWriteCfibuffer_ok ((hport hword).resolve_left hone) hserves
              hbursts.1.1 hbursts.1.2 (not_not.mp hrc), hw.burst herased (by omega), Nat.add_assoc] at hleft
            rw [Nat.add_assoc] at hbursts
            exact ih (by omega) (fun _ => hport hword) hbursts.2 hw.add hleft
      · rename_i hword
        cases hleft
        exact ⟨rfl, hc, not_le.mp hword, hw⟩

/-! ## Head and tail -/

theorem writeTail_progress {off c : ℕ} {w w' : Writing}
    (hserves : Serves info chip) (hc : off + c = cnt)
    (hword : c < info.portwidth) (hw : Progress src flash addr off w)
    (h : writeTail info chip src (addr + off) off c w = (0, w')) :
    Progress src flash addr cnt w' := by
  rw [writeTail] at h
  split at h
  · rename_i hzero
    cases h
    rw [← hc, hzero]
    exact hw
  · have hlen : (src.read off c ++
        w.flash.read (addr + off + c) (info.portwidth - c)).length = info.portwidth := by
      rw [List.length_append, read_length, read_length]
      omega
    have haround := copyIn_around w.flash (addr + off) 0 (info.portwidth - c)
      (src.read off c)
    rw [read_length, Nat.add_zero, show w.flash.read (addr + off) 0 = [] from rfl,
      List.nil_append] at haround
    have hok := flashWriteCfiword_ok hlen hserves (congrArg Prod.fst h)
    rw [h] at hok
    rw [← hc, show w' = _ from hok]
    simp only [Writing.read, haround]
    exact hw.add

theorem headBytes_le (info : CfiInfo) (addr cnt : ℕ) : headBytes info addr cnt ≤ cnt := by
  rw [headBytes]
  split
  · exact Nat.zero_le _
  · exact Nat.min_le_right ..

/-- Where something is left behind the head, it starts at a word. -/
theorem headEnd_eq (h : headBytes info addr cnt < cnt) :
    headEnd info addr = addr + headBytes info addr cnt := by
  have hlt := Nat.mod_lt addr (portwidth_pos info)
  have hle := Nat.mod_le addr info.portwidth
  rw [headBytes] at h ⊢
  rw [headEnd]
  split
  · rfl
  · rename_i haln
    rw [if_neg haln] at h
    omega

theorem portwidth_dvd_headEnd (info : CfiInfo) (addr : ℕ) :
    info.portwidth ∣ headEnd info addr := by
  rw [headEnd]
  split
  · rename_i haln
    exact Nat.dvd_of_mod_eq_zero haln
  · exact Nat.dvd_add (Nat.dvd_sub_mod addr) (dvd_refl _)

theorem headWord_length (haln : addr % info.portwidth ≠ 0) :
    (headWord info src flash addr cnt).length = info.portwidth := by
  have hlt := Nat.mod_lt addr (portwidth_pos info)
  simp only [headWord, List.length_append, read_length, headBytes, if_neg haln]
  omega

theorem copyIn_headWord :
    flash.copyIn (addr - addr % info.portwidth) (headWord info src flash addr cnt) =
      flash.copyIn addr (src.read 0 (headBytes info addr cnt)) := by
  have hle := Nat.mod_le addr info.portwidth
  have haround := copyIn_around flash (addr - addr % info.portwidth)
    (addr % info.portwidth)
    (info.portwidth - addr % info.portwidth - headBytes info addr cnt)
    (src.read 0 (headBytes info addr cnt))
  rwa [read_length, Nat.sub_add_cancel hle] at haround

/-- The head, and then the rest from the end of the head on. -/
theorem writeBuff_cases (info : CfiInfo) (chip : Chip) (src flash : Memory UInt8)
    (addr cnt rounds : ℕ) :
    (∃ rc w, rc ≠ 0 ∧ writeBuff info chip src flash addr cnt rounds = some (rc, w)) ∨
      ∃ w, writeBuff info chip src flash addr cnt rounds =
          writeAligned info chip src rounds (headEnd info addr)
            (headBytes info addr cnt) (cnt - headBytes info addr cnt) w ∧
        (cnt = 0 ∨ Serves info chip →
          Progress src flash addr (headBytes info addr cnt) w) := by
  simp only [writeBuff]
  by_cases haln : addr % info.portwidth = 0
  · have hhead : headBytes info addr cnt = 0 := if_pos haln
    rw [if_neg (not_not.mpr haln), headEnd, if_pos haln, hhead, Nat.sub_zero]
    exact .inr ⟨_, rfl, fun _ => progress_zero 0⟩
  · rw [if_pos haln]
    split
    · rename_i hrc
      exact .inl ⟨_, _, hrc, rfl⟩
    · rename_i hrc
      refine .inr ⟨_, rfl, fun h => ?_⟩
      have hlen : (headWord info src flash addr cnt).length = info.portwidth :=
        headWord_length haln
      have hmax : max 0 (headBytes info addr cnt) ≤ headBytes info addr cnt :=
        (Nat.zero_max _).le
      rcases h with hcnt | hserves
      · -- with nothing to write the word is what stands there
        have hzero : headBytes info addr cnt = 0 :=
          Nat.le_zero.mp (hcnt ▸ headBytes_le info addr cnt)
        have hsame : flash.copyIn (addr - addr % info.portwidth)
            (headWord info src flash addr cnt) = _ := copyIn_headWord
        obtain ⟨hflash, hread⟩ := flashWriteCfiword_flash info chip
          (addr - addr % info.portwidth)
          (Writing.read ⟨flash, 0, 0⟩ (headBytes info addr cnt)) hlen
        refine ⟨?_, hread.trans_le hmax⟩
        rcases hflash with hold | hnew
        · rw [hold, hzero]
          exact (copyIn_nil flash addr).symm
        · rw [hnew]
          exact hsame
      · rw [flashWriteCfiword_ok hlen hserves (not_not.mp hrc)]
        exact ⟨copyIn_headWord, hmax⟩

/-! ## Calls that are right -/

/-- The rest of a call, where what was written so far is right. -/
theorem writeAligned_progress {rounds off : ℕ} {w w' : Writing}
    (hserves : Serves info chip)
    (herased : ∀ k < cnt, flash (addr + k) = 0xFF) (hoff : off < cnt)
    (hbursts : ∀ len ∈ bursts info rounds (addr + off) (cnt - off),
      CountFits info len ∧ BurstOk info len)
    (hw : Progress src flash addr off w)
    (h : writeAligned info chip src rounds (addr + off) off (cnt - off) w =
      some (0, w')) :
    Progress src flash addr cnt w' := by
  rw [writeAligned] at h
  cases hleft : alignedLoop info chip src rounds (addr + off) off (cnt - off) w with
  | running =>
      rw [hleft] at h
      cases h
  | failed rc w₁ =>
      rw [hleft] at h
      cases h
      exact absurd rfl (alignedLoop_failed hleft)
  | left wp off' c' w₁ =>
      rw [hleft] at h
      have hend : info.portwidth ≤ cnt - off →
          info.bufferSize = 1 ∨ info.portwidth ≤ info.bufferedSize := by
        intro hword
        by_contra hstuck
        obtain ⟨hbuffer, hport⟩ := not_or.mp hstuck
        exact alignedLoop_stuck (not_le.mp hport) hbuffer hword hleft
      obtain ⟨rfl, hsum, hlt, hw₁⟩ :=
        alignedLoop_progress hserves herased (by omega) hend hbursts hw hleft
      exact writeTail_progress hserves hsum hlt hw₁ (Option.some.inj h)

/-- A call that does not end returns no 0. -/
theorem writeAligned_stuck {rounds wp off c : ℕ} {w w' : Writing}
    (hport : info.bufferedSize < info.portwidth) (hbuffer : info.bufferSize ≠ 1)
    (hc : info.portwidth ≤ c) :
    writeAligned info chip src rounds wp off c w ≠ some (0, w') := by
  intro h
  rw [writeAligned] at h
  cases hleft : alignedLoop info chip src rounds wp off c w with
  | running =>
      rw [hleft] at h
      cases h
  | failed rc w₁ =>
      rw [hleft] at h
      cases h
      exact alignedLoop_failed hleft rfl
  | left wp' off' c' w₁ => exact alignedLoop_stuck hport hbuffer hc hleft

/-- Nothing is left behind the head. -/
theorem writeAligned_none {rounds wp off : ℕ} {w w' : Writing}
    (h : writeAligned info chip src rounds wp off 0 w = some (0, w')) : w' = w := by
  have hpos := portwidth_pos info
  cases rounds with
  | zero => cases h
  | succ rounds =>
      simp only [writeAligned, alignedLoop, if_neg (not_le.mpr hpos), writeTail,
        if_true, Option.some.injEq, Prod.mk.injEq, true_and] at h
      exact h.symm

/-- A loop that is left has had its bursts taken, by a chip that is not ready behind
one that it cannot take. -/
theorem alignedLoop_taken {src : Memory UInt8} (hready : ∀ n, chip.ready n = false)
    {rounds wp off c : ℕ} {w : Writing} {wp' off' c' : ℕ} {w' : Writing}
    (hleft : alignedLoop info chip src rounds wp off c w = .left wp' off' c' w')
    (rounds' : ℕ) :
    ∀ len ∈ bursts info rounds' wp c, burstTaken info len = true := by
  induction rounds generalizing rounds' wp off c w with
  | zero => cases hleft
  | succ rounds ih =>
      cases rounds' with
      | zero => exact List.forall_mem_nil _
      | succ rounds' =>
          rw [bursts]
          split
          · rename_i hpass
            simp only [alignedLoop, if_pos hpass.1, if_neg hpass.2] at hleft
            split at hleft
            · cases hleft
            · rename_i hrc
              exact List.forall_mem_cons.mpr
                ⟨flashWriteCfibuffer_taken hready (not_not.mp hrc), ih hleft rounds'⟩
          · exact List.forall_mem_nil _

/-- Behind something to write, a chip that is not ready for what it cannot take has
taken it. -/
theorem writeTail_taken {wp off c : ℕ} {w w' : Writing}
    (hready : ∀ n, chip.ready n = false) (hc : c ≠ 0)
    (h : writeTail info chip src wp off c w = (0, w')) : CmdsReach info := by
  rw [writeTail, if_neg hc] at h
  exact flashWriteCfiword_taken hready (congrArg Prod.fst h)

theorem writeAligned_taken {rounds wp off c : ℕ} {w w' : Writing}
    (hready : ∀ n, chip.ready n = false) (hc : c ≠ 0)
    (h : writeAligned info chip src rounds wp off c w = some (0, w')) :
    CmdsReach info := by
  cases rounds with
  | zero => cases h
  | succ rounds =>
      simp only [writeAligned, alignedLoop] at h
      by_cases hword : info.portwidth ≤ c
      · rw [if_pos hword] at h
        by_cases hone : info.bufferSize = 1
        · rw [if_pos hone] at h
          by_cases hrc : (flashWriteCfiword info chip wp
              (wordOf info (src.read off info.portwidth))
              (w.read (off + info.portwidth))).1 = 0
          · exact flashWriteCfiword_taken hready hrc
          · simp only [if_pos hrc] at h
            exact absurd (Prod.ext_iff.mp (Option.some.inj h)).1 hrc
        · rw [if_neg hone] at h
          by_cases hrc : (flashWriteCfibuffer info chip src wp off
              (burstLength info wp c) w).1 = 0
          · exact (burstTaken_iff.mp (flashWriteCfibuffer_taken hready hrc)).1
          · simp only [if_pos hrc] at h
            exact absurd (Prod.ext_iff.mp (Option.some.inj h)).1 hrc
      · rw [if_neg hword] at h
        exact writeTail_taken hready hc (Option.some.inj h)

/-- A call that a chip cannot take returns 0 only if the chip is ready all the
same. -/
theorem writeBuff_taken {rounds : ℕ} {w : Writing}
    (hready : ∀ n, chip.ready n = false)
    (h : writeBuff info chip src flash addr cnt rounds = some (0, w)) :
    ¬ Garbled info addr cnt := by
  rintro (⟨hreach, hcnt⟩ | ⟨len, ⟨rounds', hlen⟩, hcount⟩)
  · simp only [writeBuff] at h
    by_cases haln : addr % info.portwidth = 0
    · rw [if_neg (not_not.mpr haln)] at h
      exact hreach (writeAligned_taken hready hcnt h)
    · rw [if_pos haln] at h
      by_cases hrc : (flashWriteCfiword info chip (addr - addr % info.portwidth)
          (wordOf info (headWord info src flash addr cnt))
          (Writing.read ⟨flash, 0, 0⟩ (headBytes info addr cnt))).1 = 0
      · exact hreach (flashWriteCfiword_taken hready hrc)
      · simp only [if_pos hrc] at h
        exact hrc (Prod.ext_iff.mp (Option.some.inj h)).1
  · obtain ⟨rc, w', hrc, hfail⟩ | ⟨w', hrest, -⟩ :=
      writeBuff_cases info chip src flash addr cnt rounds
    · rw [hfail] at h
      cases h
      exact absurd rfl hrc
    · rw [hrest, writeAligned] at h
      split at h
      · cases h
      · rename_i hfailed
        cases h
        exact alignedLoop_failed hfailed rfl
      · rename_i hleft
        exact hcount (burstTaken_iff.mp
          (alignedLoop_taken hready hleft rounds' len hlen)).2

/-- A call that has nothing to write, or whose operations are taken and not refused,
is right if its bursts have the bytes that they should have. -/
theorem writeBuff_progress {rounds : ℕ} {w : Writing}
    (hserves : cnt = 0 ∨ Serves info chip)
    (hbursts : ∀ len, IsBurst info addr cnt len →
      CountFits info len ∧ BurstOk info len)
    (herased : ∀ k < cnt, flash (addr + k) = 0xFF)
    (h : writeBuff info chip src flash addr cnt rounds = some (0, w)) :
    Progress src flash addr cnt w := by
  obtain ⟨rc, w', hrc, hfail⟩ | ⟨w', hrest, hhead⟩ :=
    writeBuff_cases info chip src flash addr cnt rounds
  · rw [hfail] at h
    cases h
    exact absurd rfl hrc
  · have hw := hhead hserves
    rw [hrest] at h
    rcases (headBytes_le info addr cnt).lt_or_eq with hlt | heq
    · rw [headEnd_eq hlt] at h
      refine writeAligned_progress (hserves.resolve_left (by omega)) herased hlt ?_ hw h
      rw [← headEnd_eq hlt]
      exact fun len hlen => hbursts len ⟨rounds, hlen⟩
    · rw [heq] at hw
      rw [heq, Nat.sub_self] at h
      rw [writeAligned_none h]
      exact hw

/-- A call that writes safely is right. -/
theorem writeBuff_right {mayRefuse mayPass : Prop}
    (hsafe : WritesSafely info mayRefuse mayPass addr cnt) :
    WritesRight info mayRefuse mayPass addr cnt := by
  intro chip src flash rounds hchip hready herased
  rw [copied_iff]
  intro w h
  by_cases hends : NeverEnds info addr cnt
  · obtain ⟨rc, w', hrc, hfail⟩ | ⟨w', hrest, -⟩ :=
      writeBuff_cases info chip src flash addr cnt rounds
    · rw [hfail] at h
      cases h
      exact absurd rfl hrc
    · rw [hrest] at h
      exact absurd h (writeAligned_stuck hends.1 hends.2.1 hends.2.2)
  rcases hsafe.resolve_left hends with ⟨hpass, hgarbled⟩ | ⟨hrefuse, hclear, hok⟩
  · exact absurd hgarbled (writeBuff_taken (hready hpass) h)
  · obtain ⟨hreach, hcount⟩ := not_or.mp hclear
    refine writeBuff_progress ?_ (fun len hlen => ⟨?_, hok len hlen⟩) herased h
    · by_cases hcnt : cnt = 0
      · exact .inl hcnt
      · exact .inr ⟨by_contra fun hnot => hreach ⟨hnot, hcnt⟩,
          hchip fun hmay => hcnt (hrefuse hmay)⟩
    · by_contra hnot
      exact hcount ⟨len, hlen, hnot⟩

/-! ## Runs that return 0 -/

/-- Behind `wp`, and where no bit is set, the flash stays as it is, and what has been
read stays read. -/
def Later (wp : ℕ) (w w' : Writing) : Prop :=
  (∀ p, p < wp ∨ w.flash p = 0 → w'.flash p = w.flash p) ∧ w.srcRead ≤ w'.srcRead

theorem later_refl (wp : ℕ) (w : Writing) : Later wp w w := ⟨fun _ _ => rfl, le_rfl⟩

theorem Later.trans {wp : ℕ} {w₁ w₂ w₃ : Writing} (h : Later wp w₁ w₂)
    (h' : Later wp w₂ w₃) : Later wp w₁ w₃ := by
  refine ⟨fun p hp => ?_, h.2.trans h'.2⟩
  rw [h'.1 p (hp.imp_right fun hzero => (h.1 p (.inr hzero)).trans hzero), h.1 p hp]

/-- An operation behind `wp`. -/
theorem later_chipProgram {wp dest stop : ℕ} (hdest : wp ≤ dest) (taken : Bool)
    (bytes : List UInt8) (w : Writing) :
    Later wp w (chipProgram chip taken dest bytes (w.read stop)).2 := by
  obtain ⟨hflash, hread⟩ := chipProgram_flash chip taken dest bytes (w.read stop)
  refine ⟨fun p hp => ?_, ?_⟩
  · rcases hflash with hold | hnew
    · rw [hold]
      rfl
    · rw [hnew]
      rcases hp with hlt | hzero
      · exact Memory.program_of_lt _ (hlt.trans_le hdest)
      · rw [Memory.program]
        split
        · rfl
        · simp only [Writing.read, hzero, UInt8.zero_and]
  · rw [hread]
    exact Nat.le_max_left ..

/-- The chip does not time out, and takes the commands of the port or is ready all the
same. -/
def Passes (info : CfiInfo) (chip : Chip) : Prop :=
  (CmdsReach info ∨ ∀ n, chip.ready n = true) ∧ ∀ n, chip.outcome n ≠ .timesOut

/-- The chip takes the word count of a burst or is ready all the same. -/
def CountPasses (info : CfiInfo) (chip : Chip) (len : ℕ) : Prop :=
  CountFits info len ∨ ∀ n, chip.ready n = true

/-- A burst that passes. -/
theorem flashWriteCfibuffer_passes {wp dest len : ℕ} (hpasses : Passes info chip)
    (hcount : CountPasses info chip len) (hdest : wp ≤ dest) (off : ℕ)
    (w : Writing) :
    (flashWriteCfibuffer info chip src dest off len w).1 = 0 ∧
      Later wp w (flashWriteCfibuffer info chip src dest off len w).2 := by
  have htaken : burstTaken info len = true ∨ ∀ n, chip.ready n = true := by
    rw [burstTaken_iff, and_or_right]
    exact ⟨hpasses.1, hcount⟩
  simp only [flashWriteCfibuffer]
  cases info.vendor with
  | intelStandard | intelExtended | intelSibley | amdStandard | amdExtended =>
      exact ⟨chipProgram_passes htaken (hpasses.2 _), later_chipProgram hdest _ _ _⟩

/-- A word the flash can take. -/
theorem flashWriteCfiword_passes {wp dest stop : ℕ} {bytes : List UInt8} {w : Writing}
    (hpasses : Passes info chip) (hdest : wp ≤ dest)
    (hlen : bytes.length = info.portwidth)
    (htakes : ∀ k (_ : k < bytes.length), w.flash (dest + k) &&& bytes[k] = bytes[k]) :
    (flashWriteCfiword info chip dest (wordOf info bytes) (w.read stop)).1 = 0 ∧
      Later wp w (flashWriteCfiword info chip dest (wordOf info bytes) (w.read stop)).2 := by
  have htaken := hpasses.1.imp_left (cmdsSeen_iff info).1.mpr
  rw [flashWriteCfiword_wordOf hlen, if_pos (by exact htakes)]
  exact ⟨chipProgram_passes htaken (hpasses.2 _), later_chipProgram hdest _ _ _⟩

/-- A burst takes up a whole word, and ends inside one at the end only. -/
theorem burstLength_spec {wp c : ℕ} (hport : info.portwidth ≤ info.bufferedSize)
    (hwp : info.portwidth ∣ wp) (hc : info.portwidth ≤ c) :
    info.portwidth ≤ burstLength info wp c - burstLength info wp c % info.portwidth ∧
      (burstLength info wp c % info.portwidth ≠ 0 → burstLength info wp c = c) := by
  have hdvd := portwidth_dvd hport
  have hroom : info.portwidth ∣ info.bufferedSize - wp % info.bufferedSize :=
    Nat.dvd_sub hdvd ((Nat.dvd_mod_iff hdvd).mpr hwp)
  have hlt := Nat.mod_lt wp (bufferedSize_pos info)
  have hle := Nat.le_of_dvd (by omega) hroom
  refine ⟨?_, fun hmod => ?_⟩
  · have hword : 1 ≤ burstLength info wp c / info.portwidth :=
      Nat.div_pos (le_min hle hc) (portwidth_pos info)
    calc
      info.portwidth = info.portwidth * 1 := (Nat.mul_one _).symm
      _ ≤ info.portwidth * (burstLength info wp c / info.portwidth) :=
        Nat.mul_le_mul_left _ hword
      _ = burstLength info wp c - burstLength info wp c % info.portwidth :=
        Nat.mul_div_self_eq_mod_sub_self
  rw [burstLength] at hmod ⊢
  rcases Nat.le_total (info.bufferedSize - wp % info.bufferedSize) c with hroomle | hcle
  · rw [min_eq_left hroomle] at hmod
    exact absurd (Nat.mod_eq_zero_of_dvd hroom) hmod
  · exact min_eq_right hcle

/-- Where every pass returns 0 the loop is left with less than a word. -/
theorem alignedLoop_left {P : Writing → Prop} {low : ℕ}
    (hword : info.bufferSize = 1 → ∀ dest off w, low ≤ dest → P w →
      (flashWriteCfiword info chip dest (wordOf info (src.read off info.portwidth))
        (w.read (off + info.portwidth))).1 = 0 ∧
      P (flashWriteCfiword info chip dest (wordOf info (src.read off info.portwidth))
        (w.read (off + info.portwidth))).2)
    (hburst : ∀ dest off len w, CountPasses info chip len → low ≤ dest → P w →
      (flashWriteCfibuffer info chip src dest off len w).1 = 0 ∧
        P (flashWriteCfibuffer info chip src dest off len w).2)
    {rounds wp c : ℕ} (off : ℕ) {w : Writing} (hrounds : c < rounds)
    (hcounts : ∀ len ∈ bursts info rounds wp c, CountPasses info chip len)
    (hend : info.portwidth ≤ c →
      info.bufferSize = 1 ∨ info.portwidth ≤ info.bufferedSize)
    (hwp : info.portwidth ∣ wp) (hlow : low ≤ wp) (hw : P w) :
    ∃ wp' off' c' w', alignedLoop info chip src rounds wp off c w =
        .left wp' off' c' w' ∧ P w' ∧ off' + c' = off + c ∧ low ≤ wp' ∧
      c' < info.portwidth ∧ off ≤ off' ∧
      (info.portwidth ≤ c → off + info.portwidth ≤ off') := by
  have hpos := portwidth_pos info
  induction rounds generalizing wp off c w with
  | zero => cases hrounds
  | succ rounds ih =>
      by_cases hc : info.portwidth ≤ c
      · by_cases hone : info.bufferSize = 1
        · obtain ⟨hrc, hP⟩ := hword hone wp off w hlow hw
          obtain ⟨wp', off', c', w', hleft, hw', hsum, hlow', hlt, hoff, -⟩ :=
            @ih (wp + info.portwidth) (c - info.portwidth) (off + info.portwidth) _
              (by omega) (by simp [bursts_one hone]) (fun _ => .inl hone)
              (Nat.dvd_add hwp (dvd_refl _)) (by omega) hP
          refine ⟨wp', off', c', w', ?_, hw', by omega, hlow', hlt, by omega,
            fun _ => hoff⟩
          simp only [alignedLoop, if_pos hc, if_pos hone, hrc, ne_eq, not_true,
            if_false]
          exact hleft
        · simp only [bursts, if_pos (And.intro hc hone), List.forall_mem_cons] at hcounts
          obtain ⟨hrc, hP⟩ := hburst wp off (burstLength info wp c) w hcounts.1 hlow hw
          obtain ⟨hge, -⟩ := burstLength_spec ((hend hc).resolve_left hone) hwp hc
          have hic := (burstLength_le info wp c).1
          obtain ⟨wp', off', c', w', hleft, hw', hsum, hlow', hlt, hoff, -⟩ :=
            @ih (wp + (burstLength info wp c - burstLength info wp c % info.portwidth))
              (c - (burstLength info wp c - burstLength info wp c % info.portwidth))
              (off + (burstLength info wp c - burstLength info wp c % info.portwidth)) _
              (by omega) hcounts.2 (fun _ => hend hc)
              (Nat.dvd_add hwp (Nat.dvd_sub_mod _)) (by omega) hP
          refine ⟨wp', off', c', w', ?_, hw', by omega, hlow', hlt, by omega,
            fun _ => by omega⟩
          simp only [alignedLoop, if_pos hc, if_neg hone, hrc, ne_eq, not_true,
            if_false]
          exact hleft
      · exact ⟨wp, off, c, w, by simp only [alignedLoop, if_neg hc], hw, rfl, hlow,
          not_le.mp hc, le_rfl, fun h => absurd h hc⟩

/-- Where what is left of the source is zeros the tail is written. -/
theorem writeTail_passes {wp off c : ℕ} {w : Writing} (hpasses : Passes info chip)
    (hword : c < info.portwidth)
    (hsrc : ∀ k < c, src (off + k) = 0) :
    (writeTail info chip src wp off c w).1 = 0 ∧
      Later wp w (writeTail info chip src wp off c w).2 := by
  rw [writeTail]
  split
  · exact ⟨rfl, later_refl wp w⟩
  · refine flashWriteCfiword_passes hpasses le_rfl ?_ fun k hk => ?_
    · rw [List.length_append, read_length, read_length]
      omega
    · by_cases hkc : k < c
      · rw [List.getElem_append_left (by rwa [read_length]), read_getElem, hsrc k hkc]
        exact UInt8.and_zero
      · rw [List.getElem_append_right (by rw [read_length]; omega), read_getElem,
          read_length, Nat.add_assoc, Nat.add_sub_cancel' (not_lt.mp hkc)]
        exact UInt8.and_self

/-- The source is zeros behind a burst, but for the next word. -/
def ZerosBehind (info : CfiInfo) (src : Memory UInt8) (stop left : ℕ) : Prop :=
  ∀ k, stop ≤ k → src k ≠ 0 → info.portwidth ≤ left ∧ k < stop + info.portwidth

theorem zerosBehind_zeros (info : CfiInfo) (stop left : ℕ) :
    ZerosBehind info (fun _ => 0) stop left := fun _ _ h => absurd rfl h

/-- Where the source is zeros but for the next word, the rest of the call returns 0. -/
theorem writeAligned_later {rounds wp off c : ℕ} {w : Writing}
    (hpasses : Passes info chip)
    (hport : info.portwidth ≤ info.bufferedSize) (hbuffer : info.bufferSize ≠ 1)
    (hrounds : c < rounds)
    (hcounts : ∀ len ∈ bursts info rounds wp c, CountPasses info chip len) (hwp : info.portwidth ∣ wp)
    (hsrc : ZerosBehind info src off c) :
    ∃ w', writeAligned info chip src rounds wp off c w = some (0, w') ∧
      Later wp w w' := by
  obtain ⟨wp', off', c', w', hleft, hw', -, hlow, hlt, hoff, hnext⟩ :=
    alignedLoop_left (P := Later wp w) (fun hone => absurd hone hbuffer)
      (fun dest off len w' hcount hdest hw' =>
        have hburst := flashWriteCfibuffer_passes hpasses hcount hdest off w'
        ⟨hburst.1, hw'.trans hburst.2⟩)
      off hrounds hcounts (fun _ => .inr hport) hwp le_rfl (later_refl wp w)
  have hzero : ∀ k < c', src (off' + k) = 0 := by
    intro k _
    by_contra hne
    obtain ⟨hc, hk⟩ := hsrc (off' + k) (by omega) hne
    have := hnext hc
    omega
  have hrest : (writeTail info chip src wp' off' c' w').1 = 0 ∧
      Later wp' w' (writeTail info chip src wp' off' c' w').2 :=
    writeTail_passes hpasses hlt hzero
  obtain ⟨hrc, htail⟩ := hrest
  refine ⟨(writeTail info chip src wp' off' c' w').2, ?_, ?_⟩
  · rw [writeAligned, hleft]
    exact congrArg some (Prod.ext hrc rfl)
  · refine hw'.trans ⟨fun p hp => htail.1 p (hp.imp_left fun h => h.trans_le hlow), htail.2⟩

/-! ## Bursts that are not right -/

/-- Too much has been read, or a byte is not what it should be and stays so. -/
def Spoilt (src : Memory UInt8) (addr cnt wp : ℕ) (w : Writing) : Prop :=
  cnt < w.srcRead ∨
    ∃ p, (p < wp ∨ w.flash p = 0) ∧
      w.flash p ≠ copyIn (fun _ => 0xFF) addr (src.read 0 cnt) p

theorem Spoilt.later {wp : ℕ} {w w' : Writing} (h : Spoilt src addr cnt wp w)
    (hlater : Later wp w w') : ¬ Progress src (fun _ => 0xFF) addr cnt w' := by
  rintro ⟨hflash, hread⟩
  rcases h with hlt | ⟨p, hp, hne⟩
  · have := hlater.2
    omega
  · rw [← hlater.1 p hp, hflash] at hne
    exact hne rfl

/-- Erased flash where the source has a zero. -/
theorem spoilt_of_erased {off wp : ℕ} {w : Writing} (hoff : off < cnt)
    (hwp : addr + off < wp) (herased : w.flash (addr + off) = 0xFF) (hsrc : src off = 0) :
    Spoilt src addr cnt wp w := by
  refine .inr ⟨addr + off, .inl hwp, ?_⟩
  rw [herased, copyIn_add (by rwa [read_length]), read_getElem, Nat.zero_add, hsrc]
  decide

/-- What an Intel chip gets of the source. -/
theorem flashWriteCfibuffer_srcRead
    (hvendor : info.vendor ≠ .amdStandard ∧ info.vendor ≠ .amdExtended)
    (src : Memory UInt8) (dest off len : ℕ) (w : Writing) :
    (flashWriteCfibuffer info chip src dest off len w).2.srcRead =
      max w.srcRead (off + burstWords info len * info.portwidth) := by
  simp only [flashWriteCfibuffer]
  cases hv : info.vendor with
  | intelStandard | intelExtended | intelSibley => exact (chipProgram_flash ..).2
  | amdStandard => exact absurd hv hvendor.1
  | amdExtended => exact absurd hv hvendor.2

/-- A burst that is not taken, or refused, leaves the flash as it is. -/
theorem flashWriteCfibuffer_idle {dest off len : ℕ} {w : Writing}
    (hidle : burstTaken info len = false ∨ ∀ n, chip.outcome n = .refuses) :
    (flashWriteCfibuffer info chip src dest off len w).2.flash = w.flash := by
  simp only [flashWriteCfibuffer]
  cases info.vendor with
  | intelStandard | intelExtended | intelSibley | amdStandard | amdExtended =>
      exact chipProgram_idle (hidle.imp_right fun h => h _)

/-- A burst to a Sibley chip, and what it is filled up with. -/
theorem flashWriteCfibuffer_sibley {dest off len : ℕ} {w : Writing}
    (hvendor : info.vendor = .intelSibley) (htaken : burstTaken info len = true)
    (hchip : ∀ n, chip.outcome n = .programs) :
    (flashWriteCfibuffer info chip src dest off len w).2.flash =
      w.flash.program dest (src.read off (burstWords info len * info.portwidth) ++
        List.replicate (fillWords info len * info.portwidth) 0) := by
  simp only [flashWriteCfibuffer, hvendor, chipProgram, if_pos htaken, hchip]
  rfl

/-- What a burst to a Sibley chip is filled up with clears what is behind it. -/
theorem fill_zero {m src : Memory UInt8} {dest off len k : ℕ}
    (hmod : len % info.portwidth = 0) (hport : info.portwidth ≤ info.bufferedSize)
    (hk : len ≤ k) (hlt : k < info.bufferedSize) :
    m.program dest (src.read off (burstWords info len * info.portwidth) ++
      List.replicate (fillWords info len * info.portwidth) 0) (dest + k) = 0 := by
  have hwords : burstWords info len * info.portwidth = len := by
    rw [burstWords, if_pos hmod, Nat.add_zero]
    exact Nat.div_mul_cancel (Nat.dvd_of_mod_eq_zero hmod)
  have hbuffer : info.bufferedSize / info.portwidth * info.portwidth =
      info.bufferedSize := Nat.div_mul_cancel (portwidth_dvd hport)
  have hfill : fillWords info len * info.portwidth = info.bufferedSize - len := by
    rw [fillWords, Nat.sub_mul, hbuffer, hwords]
  have hlen : (src.read off (burstWords info len * info.portwidth)).length = len := by
    rw [read_length, hwords]
  rw [Memory.program_add (by
    rw [List.length_append, hlen, List.length_replicate, hfill]; omega),
    List.getElem_append_right (by rw [hlen]; exact hk), List.getElem_replicate]
  exact UInt8.and_zero

/-- A chip that programs what it takes. -/
def programming (ready : ℕ → Bool) : Chip := ⟨fun _ => .programs, ready⟩

section BadBurst

variable {ready : ℕ → Bool} {off c i : ℕ}

/-- Too much is read for a burst that ends inside a word. -/
theorem inside_spoils (hc : off + c = cnt) (hmod : i % info.portwidth ≠ 0)
    (hend : i = c) (hvendor : info.vendor ≠ .amdStandard ∧ info.vendor ≠ .amdExtended)
    (src : Memory UInt8) (w : Writing) :
    Spoilt src addr cnt (addr + (off + (i - i % info.portwidth)))
      (flashWriteCfibuffer info (programming ready) src (addr + off) off i w).2 := by
  refine .inl ?_
  rw [flashWriteCfibuffer_srcRead hvendor]
  have hmore : c < burstWords info i * info.portwidth := by
    rw [burstWords, if_neg hmod, ← hend, Nat.add_mul, Nat.mul_comm]
    have := Nat.div_add_mod i info.portwidth
    have := Nat.mod_lt i (portwidth_pos info)
    omega
  exact lt_max_of_lt_right (by omega)

variable (ready) in
/-- The words a burst to a Sibley chip is filled up with clear what is behind it. -/
theorem fill_spoils (hport : info.portwidth ≤ info.bufferedSize) (hc : off + c = cnt)
    (hi : burstLength info (addr + off) c = i) (hvendor : info.vendor = .intelSibley)
    (htaken : burstTaken info i = true) (hmod : i % info.portwidth = 0)
    (hshort : i < info.bufferedSize) :
    ∃ src : Memory UInt8, ZerosBehind info src (off + i) (c - i) ∧
      ∀ w : Writing, Spoilt src addr cnt (addr + (off + i))
        (flashWriteCfibuffer info (programming ready) src (addr + off) off i w).2 := by
  have hic := (burstLength_le info (addr + off) c).1
  rw [hi] at hic
  have hcleared : ∀ (src : Memory UInt8) (w : Writing) (k : ℕ), i ≤ k →
      k < info.bufferedSize →
      (flashWriteCfibuffer info (programming ready) src (addr + off) off i
        w).2.flash (addr + off + k) = 0 := by
    intro src w k hk hlt
    rw [flashWriteCfibuffer_sibley hvendor htaken fun _ => rfl]
    exact fill_zero hmod hport hk hlt
  by_cases hlast : c - i < info.portwidth
  · have hgap : info.portwidth ≤ info.bufferedSize - i :=
      Nat.le_of_dvd (by omega)
        (Nat.dvd_sub (portwidth_dvd hport) (Nat.dvd_of_mod_eq_zero hmod))
    refine ⟨fun _ => 0, zerosBehind_zeros info _ _, fun w =>
      .inr ⟨addr + off + c, .inr (hcleared _ w c hic (by omega)), ?_⟩⟩
    rw [hcleared _ w c hic (by omega), copyIn_of_ge (by rw [read_length]; omega)]
    decide
  · refine ⟨fun k => if k = off + i then 0xFF else 0, fun k _ hk => ?_, fun w =>
      .inr ⟨addr + off + i, .inr (hcleared _ w i le_rfl hshort), ?_⟩⟩
    · rw [ite_ne_right_iff] at hk
      have := portwidth_pos info
      omega
    · rw [hcleared _ w i le_rfl hshort, Nat.add_assoc,
        copyIn_add (by rw [read_length]; have := portwidth_pos info; omega),
        read_getElem, Nat.zero_add, if_pos rfl]
      decide

variable (ready) in
/-- For a burst that is not right there is a source, zeros but for a byte at most,
whose words leave the flash spoilt. -/
theorem burst_spoils (hport : info.portwidth ≤ info.bufferedSize) (hc : off + c = cnt)
    (hword : info.portwidth ≤ c) (hwp : info.portwidth ∣ addr + off)
    (hi : burstLength info (addr + off) c = i)
    (hbad : ¬ (CountFits info i ∧ BurstOk info i)) :
    ∃ src : Memory UInt8, ZerosBehind info src (off + (i - i % info.portwidth))
        (c - (i - i % info.portwidth)) ∧
      ∀ w : Writing, (∀ p, addr + off ≤ p → w.flash p = 0xFF) →
        Spoilt src addr cnt (addr + (off + (i - i % info.portwidth)))
          (flashWriteCfibuffer info (programming ready) src (addr + off) off i w).2 := by
  have hpos := portwidth_pos info
  obtain ⟨hstep, hend⟩ := burstLength_spec hport hwp hword
  rw [hi] at hstep hend
  by_cases htaken : burstTaken info i = true
  · have hlength := fun hcount => hbad ⟨(burstTaken_iff.mp htaken).2, hcount⟩
    cases hvendor : info.vendor with
    | intelStandard | intelExtended =>
        simp only [BurstOk, hvendor] at hlength
        exact ⟨fun _ => 0, zerosBehind_zeros info _ _, fun w _ =>
          inside_spoils hc hlength (hend hlength) (by simp [hvendor]) _ w⟩
    | intelSibley =>
        simp only [BurstOk, hvendor] at hlength
        by_cases hmod : i % info.portwidth = 0
        · have hib := (burstLength_le info (addr + off) c).2
          rw [hi] at hib
          obtain ⟨src, hsrc, hspoilt⟩ := fill_spoils ready hport hc hi
            hvendor htaken hmod (hib.lt_of_ne hlength)
          rw [hmod, Nat.sub_zero]
          exact ⟨src, hsrc, fun w _ => hspoilt w⟩
        · exact ⟨fun _ => 0, zerosBehind_zeros info _ _, fun w _ =>
            inside_spoils hc hmod (hend hmod) (by simp [hvendor]) _ w⟩
    | amdStandard | amdExtended =>
        simp only [BurstOk, hvendor] at hlength
        exact absurd trivial hlength
  · refine ⟨fun _ => 0, zerosBehind_zeros info _ _, fun w herased => ?_⟩
    refine spoilt_of_erased (show off < cnt by omega) (by omega) ?_ rfl
    rw [flashWriteCfibuffer_idle (.inl (Bool.eq_false_of_not_eq_true htaken))]
    exact herased _ le_rfl

end BadBurst

/-- A burst that returns 0, and the rest. -/
theorem writeAligned_burst {rounds wp off c i : ℕ} {w : Writing}
    (hbuffer : info.bufferSize ≠ 1) (hword : info.portwidth ≤ c)
    (hi : burstLength info wp c = i)
    (hrc : (flashWriteCfibuffer info chip src wp off i w).1 = 0) :
    writeAligned info chip src (rounds + 1) wp off c w =
      writeAligned info chip src rounds (wp + (i - i % info.portwidth))
        (off + (i - i % info.portwidth)) (c - (i - i % info.portwidth))
        (flashWriteCfibuffer info chip src wp off i w).2 := by
  simp only [writeAligned, alignedLoop, if_pos hword, if_neg hbuffer, hi, hrc, ne_eq,
    not_true, if_false]

/-- With a burst that is not right among them there is a source that is not written. -/
theorem bursts_spoil {ready : ℕ → Bool} {rounds off c : ℕ}
    (hreach : CmdsReach info) (hc : off + c = cnt) (hwp : info.portwidth ∣ addr + off)
    (hport : info.portwidth ≤ info.bufferedSize)
    (hcounts : ∀ rounds, ∀ len ∈ bursts info rounds (addr + off) c,
      CountPasses info (programming ready) len)
    (hbad : ∃ len ∈ bursts info rounds (addr + off) c,
      ¬ (CountFits info len ∧ BurstOk info len)) :
    ∃ src : Memory UInt8, ∀ w : Writing, (∀ p, addr + off ≤ p → w.flash p = 0xFF) →
      ∀ more > c, ∃ w',
        writeAligned info (programming ready) src more (addr + off) off c w =
          some (0, w') ∧ ¬ Progress src (fun _ => 0xFF) addr cnt w' := by
  have hpos := portwidth_pos info
  have hpasses : Passes info (programming ready) := ⟨.inl hreach, nofun⟩
  have hserves : Serves info (programming ready) := ⟨hreach, nofun⟩
  induction rounds generalizing off c with
  | zero =>
      obtain ⟨len, hlen, -⟩ := hbad
      cases hlen
  | succ rounds ih =>
      obtain ⟨len, hlen, hlenbad⟩ := hbad
      simp only [bursts] at hlen
      split at hlen
      · rename_i hpass
        obtain ⟨hword, hbuffer⟩ := hpass
        obtain ⟨i, hi⟩ : ∃ i, burstLength info (addr + off) c = i := ⟨_, rfl⟩
        rw [hi] at hlen
        obtain ⟨hstep, -⟩ := burstLength_spec hport hwp hword
        have hic := (burstLength_le info (addr + off) c).1
        rw [hi] at hstep hic
        have hnext : info.portwidth ∣ addr + (off + (i - i % info.portwidth)) := by
          rw [← Nat.add_assoc]
          exact Nat.dvd_add hwp (Nat.dvd_sub_mod _)
        -- the bursts of the call, one round at a time
        have hsplit : ∀ rounds, CountPasses info (programming ready) i ∧
            ∀ len ∈ bursts info rounds (addr + (off + (i - i % info.portwidth)))
              (c - (i - i % info.portwidth)),
              CountPasses info (programming ready) len := by
          intro rounds
          have hall := hcounts (rounds + 1)
          simp only [bursts, if_pos (And.intro hword hbuffer), List.forall_mem_cons, hi]
            at hall
          rwa [← Nat.add_assoc]
        have hrc : ∀ (src : Memory UInt8) (w : Writing),
            (flashWriteCfibuffer info (programming ready) src (addr + off) off i w).1 =
              0 :=
          fun src w =>
            (flashWriteCfibuffer_passes hpasses (hsplit 0).1 le_rfl off w).1
        by_cases hok : CountFits info i ∧ BurstOk info i
        · have hlater : len ∈ bursts info rounds
              (addr + (off + (i - i % info.portwidth))) (c - (i - i % info.portwidth)) := by
            rw [← Nat.add_assoc]
            exact (List.mem_cons.mp hlen).resolve_left fun h => hlenbad (h ▸ hok)
          obtain ⟨src, hsrc⟩ := ih (by omega) hnext (fun rounds => (hsplit rounds).2)
            ⟨len, hlater, hlenbad⟩
          refine ⟨src, fun w herased more hmore => ?_⟩
          obtain ⟨more, rfl⟩ := Nat.exists_eq_succ_of_ne_zero (Nat.ne_zero_of_lt hmore)
          rw [writeAligned_burst hbuffer hword hi (hrc src w), Nat.add_assoc]
          refine hsrc _ (fun p hp => ?_) more (by omega)
          rw [flashWriteCfibuffer_ok hport hserves hok.1 hok.2 (hrc src w)]
          refine (Memory.program_of_ge ?_).trans (herased p (by omega))
          rw [read_length]
          omega
        · obtain ⟨src, hsrc, hspoilt⟩ := burst_spoils ready hport hc hword hwp
            hi hok
          refine ⟨src, fun w herased more hmore => ?_⟩
          obtain ⟨more, rfl⟩ := Nat.exists_eq_succ_of_ne_zero (Nat.ne_zero_of_lt hmore)
          have hrounds : c - (i - i % info.portwidth) < more := by omega
          rw [writeAligned_burst hbuffer hword hi (hrc src w), Nat.add_assoc]
          obtain ⟨w', hw', hlater⟩ := writeAligned_later hpasses hport hbuffer
            hrounds (hsplit more).2 hnext hsrc
          exact ⟨w', hw', (hspoilt w herased).later hlater⟩
      · cases hlen

/-! ## Calls that are not -/

/-- A word fits into erased flash. -/
theorem takes_erased {dest : ℕ} {bytes : List UInt8} {w : Writing}
    (hw : w.flash = fun _ => 0xFF) :
    ∀ k (_ : k < bytes.length), w.flash (dest + k) &&& bytes[k] = bytes[k] := by
  intro k _
  rw [hw]
  exact UInt8.neg_one_and

/-- On erased flash the head is written, and what is behind it stays erased. -/
theorem writeBuff_head (hpasses : Passes info chip) (src : Memory UInt8)
    (addr cnt rounds : ℕ) :
    ∃ w, writeBuff info chip src (fun _ => 0xFF) addr cnt rounds =
        writeAligned info chip src rounds (headEnd info addr) (headBytes info addr cnt)
          (cnt - headBytes info addr cnt) w ∧
      (∀ p, addr + headBytes info addr cnt ≤ p → w.flash p = 0xFF) ∧
      (WordsIdle info chip → w.flash = fun _ => 0xFF) := by
  simp only [writeBuff]
  by_cases haln : addr % info.portwidth = 0
  · have hhead : headBytes info addr cnt = 0 := if_pos haln
    rw [if_neg (not_not.mpr haln), headEnd, if_pos haln, hhead, Nat.sub_zero]
    exact ⟨_, rfl, fun _ _ => rfl, fun _ => rfl⟩
  · have hlen : (headWord info src (fun _ => 0xFF) addr cnt).length = info.portwidth :=
      headWord_length haln
    obtain ⟨hflash, -⟩ := flashWriteCfiword_flash info chip
      (addr - addr % info.portwidth)
      (Writing.read ⟨fun _ => 0xFF, 0, 0⟩ (headBytes info addr cnt)) hlen
    have hrc : (flashWriteCfiword info chip (addr - addr % info.portwidth)
        (wordOf info (headWord info src (fun _ => 0xFF) addr cnt))
        (Writing.read ⟨fun _ => 0xFF, 0, 0⟩ (headBytes info addr cnt))).1 = 0 :=
      (flashWriteCfiword_passes hpasses le_rfl hlen (takes_erased rfl)).1
    rw [if_pos haln, if_neg (not_not.mpr hrc)]
    refine ⟨_, rfl, fun p hp => ?_, fun hidle => ?_⟩
    · rcases hflash with hold | hnew
      · rw [hold]
        rfl
      · rw [hnew]
        refine (congrFun copyIn_headWord p).trans (copyIn_of_ge ?_)
        rwa [read_length]
    · rw [flashWriteCfiword_idle hidle hlen]
      rfl

theorem writeTail_idle {wp off c : ℕ} {w : Writing} (hidle : WordsIdle info chip)
    (hword : c < info.portwidth) :
    (writeTail info chip src wp off c w).2.flash = w.flash := by
  rw [writeTail]
  split
  · rfl
  · refine flashWriteCfiword_idle hidle ?_
    rw [List.length_append, read_length, read_length]
    omega

/-- A chip that does nothing with words does nothing with bursts either. -/
theorem WordsIdle.burst (hidle : WordsIdle info chip) (len : ℕ) :
    burstTaken info len = false ∨ ∀ n, chip.outcome n = .refuses := by
  refine hidle.imp_left fun hreach => ?_
  rw [← Bool.not_eq_true, burstTaken_iff]
  exact fun htaken => hreach htaken.1

/-- A call that passes on a chip that does nothing returns 0, with nothing
written. -/
theorem writeBuff_idle (hpasses : Passes info chip) (hidle : WordsIdle info chip)
    (hends : ¬ NeverEnds info addr cnt)
    (hcounts : ∀ len, IsBurst info addr cnt len → CountPasses info chip len) :
    ∃ w, writeBuff info chip (fun _ => 0) (fun _ => 0xFF) addr cnt (cnt + 1) =
        some (0, w) ∧ w.flash = fun _ => 0xFF := by
  obtain ⟨w, hrest, -, hw⟩ := writeBuff_head hpasses (fun _ => 0) addr cnt (cnt + 1)
  have hend : info.portwidth ≤ cnt - headBytes info addr cnt →
      info.bufferSize = 1 ∨ info.portwidth ≤ info.bufferedSize := by
    intro hword
    by_contra hstuck
    obtain ⟨hbuffer, hport⟩ := not_or.mp hstuck
    exact hends ⟨not_le.mp hport, hbuffer, hword⟩
  obtain ⟨wp', off', c', w', hleft, hw', -, -, hlt, -, -⟩ :=
    alignedLoop_left (P := fun w => w.flash = fun _ => 0xFF)
      (fun _ dest off w _ hw =>
        ⟨(flashWriteCfiword_passes hpasses le_rfl (read_length ..)
            (takes_erased hw)).1,
          (flashWriteCfiword_idle hidle (read_length ..)).trans hw⟩)
      (fun dest off len w hcount _ hw =>
        ⟨(flashWriteCfibuffer_passes hpasses hcount le_rfl off w).1,
          (flashWriteCfibuffer_idle (hidle.burst len)).trans hw⟩)
      (headBytes info addr cnt) (Nat.lt_succ_of_le (Nat.sub_le ..))
      (fun len hlen => hcounts len ⟨_, hlen⟩) hend (portwidth_dvd_headEnd info addr)
      (Nat.zero_le _) (hw hidle)
  rw [hrest, writeAligned, hleft]
  have hrc : (writeTail info chip (fun _ => 0) wp' off' c' w').1 = 0 :=
    (writeTail_passes hpasses hlt fun _ _ => rfl).1
  exact ⟨_, congrArg some (Prod.ext hrc rfl), (writeTail_idle hidle hlt).trans hw'⟩

/-- Where there is something to write, a call that does nothing is not right. -/
theorem not_copied_idle {rounds : ℕ} {w : Writing} (hcnt : cnt ≠ 0)
    (hrun : writeBuff info chip (fun _ => 0) (fun _ => 0xFF) addr cnt rounds =
      some (0, w)) (hw : w.flash = fun _ => 0xFF) :
    ¬ Copied (fun _ => 0) (fun _ => 0xFF) addr cnt
      (writeBuff info chip (fun _ => 0) (fun _ => 0xFF) addr cnt rounds) := by
  intro hcopied
  have hbyte := (hcopied w hrun).1 0 (Nat.pos_of_ne_zero hcnt)
  rw [hw] at hbyte
  exact absurd (show (0xFF : UInt8) = 0 from hbyte) (by decide)

theorem le_of_mem_bursts {rounds wp c len : ℕ} (h : len ∈ bursts info rounds wp c) :
    info.portwidth ≤ c := by
  cases rounds with
  | zero => cases h
  | succ rounds =>
      rw [bursts] at h
      split at h
      · rename_i hpass
        exact hpass.1
      · cases h

/-- A call with a burst that is not right among its bursts. -/
theorem not_copied_burst (ready : ℕ → Bool) (hreach : CmdsReach info)
    (hends : ¬ NeverEnds info addr cnt)
    (hcounts : ∀ len, IsBurst info addr cnt len →
      CountPasses info (programming ready) len)
    (hbad : ∃ len, IsBurst info addr cnt len ∧
      ¬ (CountFits info len ∧ BurstOk info len)) :
    ∃ src, ¬ Copied src (fun _ => 0xFF) addr cnt
      (writeBuff info (programming ready) src (fun _ => 0xFF) addr cnt (cnt + 1)) := by
  obtain ⟨len, ⟨rounds, hlen⟩, hlenbad⟩ := hbad
  have hpos := portwidth_pos info
  have hword := le_of_mem_bursts hlen
  have hlt : headBytes info addr cnt < cnt := by omega
  have hport : info.portwidth ≤ info.bufferedSize := by
    by_contra hstuck
    refine hends ⟨not_le.mp hstuck, fun hone => ?_, hword⟩
    rw [bursts_one hone] at hlen
    cases hlen
  have hwp := portwidth_dvd_headEnd info addr
  have hcounts' := fun rounds len hlen => hcounts len ⟨rounds, hlen⟩
  rw [headEnd_eq hlt] at hlen hwp hcounts'
  obtain ⟨src, hsrc⟩ := bursts_spoil hreach (Nat.add_sub_cancel' hlt.le) hwp hport
    hcounts' ⟨len, hlen, hlenbad⟩
  have hpasses : Passes info (programming ready) := ⟨.inl hreach, nofun⟩
  obtain ⟨w, hrest, hw, -⟩ := writeBuff_head hpasses src addr cnt (cnt + 1)
  obtain ⟨w', hw', hspoilt⟩ := hsrc w hw (cnt + 1) (by omega)
  rw [headEnd_eq hlt, hw'] at hrest
  exact ⟨src, fun hcopied => hspoilt (copied_iff.mp hcopied w' hrest)⟩

/-- A call that is right writes safely. -/
theorem writesSafely_of_right {mayRefuse mayPass : Prop}
    (hright : WritesRight info mayRefuse mayPass addr cnt) :
    WritesSafely info mayRefuse mayPass addr cnt := by
  by_contra hsafe
  obtain ⟨hends, hrest⟩ := not_or.mp hsafe
  obtain ⟨hpass, hunsafe⟩ := not_or.mp hrest
  -- a chip that is ready for what it cannot take, if there may be one
  obtain ⟨ready, hready, hcan⟩ : ∃ ready : ℕ → Bool,
      (¬ mayPass → ∀ n, ready n = false) ∧
        ((∀ n, ready n = true) ∨ ¬ Garbled info addr cnt) := by
    by_cases hmay : mayPass
    · exact ⟨fun _ => true, fun hnot => absurd hmay hnot, .inl fun _ => rfl⟩
    · exact ⟨fun _ => false, fun _ _ => rfl, .inr fun hgarbled => hpass ⟨hmay, hgarbled⟩⟩
  have hreaches : cnt ≠ 0 → CmdsReach info ∨ ∀ n, ready n = true := by
    intro hcnt
    refine hcan.symm.imp_left fun hclear => ?_
    by_contra hreach
    exact hclear (.inl ⟨hreach, hcnt⟩)
  have hcounts : ∀ len, IsBurst info addr cnt len →
      CountFits info len ∨ ∀ n, ready n = true := by
    intro len hlen
    refine hcan.symm.imp_left fun hclear => ?_
    by_contra hcount
    exact hclear (.inr ⟨len, hlen, hcount⟩)
  by_cases hidle : cnt ≠ 0 ∧ (mayRefuse ∨ ¬ CmdsReach info)
  · -- a chip that refuses, or that no command reaches
    obtain ⟨hcnt, hwhy⟩ := hidle
    obtain ⟨outcome, hout, hpassing, hidle⟩ : ∃ outcome : ℕ → ChipOutcome,
        (¬ mayRefuse → ∀ n, outcome n ≠ .refuses) ∧ (∀ n, outcome n ≠ .timesOut) ∧
          WordsIdle info ⟨outcome, ready⟩ := by
      rcases hwhy with hmay | hreach
      · exact ⟨fun _ => .refuses, fun hnot => absurd hmay hnot, nofun, .inr fun _ => rfl⟩
      · exact ⟨fun _ => .programs, fun _ => nofun, nofun, .inl hreach⟩
    have hpasses : Passes info ⟨outcome, ready⟩ := ⟨hreaches hcnt, hpassing⟩
    obtain ⟨w, hrun, hw⟩ := writeBuff_idle hpasses hidle hends hcounts
    exact not_copied_idle hcnt hrun hw
      (hright ⟨outcome, ready⟩ (fun _ => 0) (fun _ => 0xFF) (cnt + 1) hout hready
        fun _ _ => rfl)
  · -- a burst that is not right
    have hclear : mayRefuse → cnt = 0 :=
      fun hmay => by_contra fun hcnt => hidle ⟨hcnt, .inl hmay⟩
    have hreach : ∀ len, IsBurst info addr cnt len → CmdsReach info := by
      rintro len ⟨rounds, hlen⟩
      have := le_of_mem_bursts hlen
      have := portwidth_pos info
      by_contra hnot
      exact hidle ⟨by omega, .inr hnot⟩
    have hbad : ∃ len, IsBurst info addr cnt len ∧
        ¬ (CountFits info len ∧ BurstOk info len) := by
      by_contra hall
      refine hunsafe ⟨hclear, ?_, fun len hlen => ?_⟩
      · rintro (⟨hnot, hcnt⟩ | ⟨len, hlen, hcount⟩)
        · exact hidle ⟨hcnt, .inr hnot⟩
        · exact hall ⟨len, hlen, fun hok => hcount hok.1⟩
      · by_contra hok
        exact hall ⟨len, hlen, fun hboth => hok hboth.2⟩
    obtain ⟨len, hlen, hlenbad⟩ := hbad
    obtain ⟨src, hnot⟩ := not_copied_burst ready (hreach len hlen) hends
      hcounts ⟨len, hlen, hlenbad⟩
    exact hnot (hright (programming ready) src (fun _ => 0xFF) (cnt + 1)
      (fun _ _ => nofun) hready fun _ _ => rfl)

/-- A call is right exactly when it writes safely. -/
theorem writeBuff_right_iff (info : CfiInfo) (mayRefuse mayPass : Prop)
    (addr cnt : ℕ) :
    WritesRight info mayRefuse mayPass addr cnt ↔
      WritesSafely info mayRefuse mayPass addr cnt :=
  ⟨writesSafely_of_right, writeBuff_right⟩

/-- Three bytes on a 16-bit port: the burst is of two words, and the byte behind the
range is programmed with what stands behind the source. -/
theorem threeBytes_not_right :
    ¬ WritesRight ⟨.intelStandard, 1, 1, 5, by decide, by decide⟩ False False 0 3 := by
  intro h
  have hcopied := h ⟨fun _ => .programs, fun _ => false⟩ (fun _ => 0) (fun _ => 0xFF) 2
    (fun _ _ => nofun) (fun _ _ => rfl) (fun _ _ => rfl) _ rfl
  exact absurd (hcopied.2.1 3 (.inr le_rfl)) (by decide)

end TateFirmware.Flash
