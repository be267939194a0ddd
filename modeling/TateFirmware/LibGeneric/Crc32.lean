import Mathlib.Algebra.Order.Ring.Nat
import Mathlib.Data.List.GetD
import Mathlib.Data.List.Perm.Subperm
import Mathlib.Data.List.Range
import Mathlib.Data.Nat.Bitwise

/-!
# CRC-32

The checksum of `lib_generic/crc32.c`, byte by byte through a table.
-/

namespace TateFirmware.LibGeneric

/-- `crc_table`. -/
def crcTable : List UInt32 := [
    0x00000000, 0x77073096, 0xee0e612c, 0x990951ba, 0x076dc419, 0x706af48f,
    0xe963a535, 0x9e6495a3, 0x0edb8832, 0x79dcb8a4, 0xe0d5e91e, 0x97d2d988,
    0x09b64c2b, 0x7eb17cbd, 0xe7b82d07, 0x90bf1d91, 0x1db71064, 0x6ab020f2,
    0xf3b97148, 0x84be41de, 0x1adad47d, 0x6ddde4eb, 0xf4d4b551, 0x83d385c7,
    0x136c9856, 0x646ba8c0, 0xfd62f97a, 0x8a65c9ec, 0x14015c4f, 0x63066cd9,
    0xfa0f3d63, 0x8d080df5, 0x3b6e20c8, 0x4c69105e, 0xd56041e4, 0xa2677172,
    0x3c03e4d1, 0x4b04d447, 0xd20d85fd, 0xa50ab56b, 0x35b5a8fa, 0x42b2986c,
    0xdbbbc9d6, 0xacbcf940, 0x32d86ce3, 0x45df5c75, 0xdcd60dcf, 0xabd13d59,
    0x26d930ac, 0x51de003a, 0xc8d75180, 0xbfd06116, 0x21b4f4b5, 0x56b3c423,
    0xcfba9599, 0xb8bda50f, 0x2802b89e, 0x5f058808, 0xc60cd9b2, 0xb10be924,
    0x2f6f7c87, 0x58684c11, 0xc1611dab, 0xb6662d3d, 0x76dc4190, 0x01db7106,
    0x98d220bc, 0xefd5102a, 0x71b18589, 0x06b6b51f, 0x9fbfe4a5, 0xe8b8d433,
    0x7807c9a2, 0x0f00f934, 0x9609a88e, 0xe10e9818, 0x7f6a0dbb, 0x086d3d2d,
    0x91646c97, 0xe6635c01, 0x6b6b51f4, 0x1c6c6162, 0x856530d8, 0xf262004e,
    0x6c0695ed, 0x1b01a57b, 0x8208f4c1, 0xf50fc457, 0x65b0d9c6, 0x12b7e950,
    0x8bbeb8ea, 0xfcb9887c, 0x62dd1ddf, 0x15da2d49, 0x8cd37cf3, 0xfbd44c65,
    0x4db26158, 0x3ab551ce, 0xa3bc0074, 0xd4bb30e2, 0x4adfa541, 0x3dd895d7,
    0xa4d1c46d, 0xd3d6f4fb, 0x4369e96a, 0x346ed9fc, 0xad678846, 0xda60b8d0,
    0x44042d73, 0x33031de5, 0xaa0a4c5f, 0xdd0d7cc9, 0x5005713c, 0x270241aa,
    0xbe0b1010, 0xc90c2086, 0x5768b525, 0x206f85b3, 0xb966d409, 0xce61e49f,
    0x5edef90e, 0x29d9c998, 0xb0d09822, 0xc7d7a8b4, 0x59b33d17, 0x2eb40d81,
    0xb7bd5c3b, 0xc0ba6cad, 0xedb88320, 0x9abfb3b6, 0x03b6e20c, 0x74b1d29a,
    0xead54739, 0x9dd277af, 0x04db2615, 0x73dc1683, 0xe3630b12, 0x94643b84,
    0x0d6d6a3e, 0x7a6a5aa8, 0xe40ecf0b, 0x9309ff9d, 0x0a00ae27, 0x7d079eb1,
    0xf00f9344, 0x8708a3d2, 0x1e01f268, 0x6906c2fe, 0xf762575d, 0x806567cb,
    0x196c3671, 0x6e6b06e7, 0xfed41b76, 0x89d32be0, 0x10da7a5a, 0x67dd4acc,
    0xf9b9df6f, 0x8ebeeff9, 0x17b7be43, 0x60b08ed5, 0xd6d6a3e8, 0xa1d1937e,
    0x38d8c2c4, 0x4fdff252, 0xd1bb67f1, 0xa6bc5767, 0x3fb506dd, 0x48b2364b,
    0xd80d2bda, 0xaf0a1b4c, 0x36034af6, 0x41047a60, 0xdf60efc3, 0xa867df55,
    0x316e8eef, 0x4669be79, 0xcb61b38c, 0xbc66831a, 0x256fd2a0, 0x5268e236,
    0xcc0c7795, 0xbb0b4703, 0x220216b9, 0x5505262f, 0xc5ba3bbe, 0xb2bd0b28,
    0x2bb45a92, 0x5cb36a04, 0xc2d7ffa7, 0xb5d0cf31, 0x2cd99e8b, 0x5bdeae1d,
    0x9b64c2b0, 0xec63f226, 0x756aa39c, 0x026d930a, 0x9c0906a9, 0xeb0e363f,
    0x72076785, 0x05005713, 0x95bf4a82, 0xe2b87a14, 0x7bb12bae, 0x0cb61b38,
    0x92d28e9b, 0xe5d5be0d, 0x7cdcefb7, 0x0bdbdf21, 0x86d3d2d4, 0xf1d4e242,
    0x68ddb3f8, 0x1fda836e, 0x81be16cd, 0xf6b9265b, 0x6fb077e1, 0x18b74777,
    0x88085ae6, 0xff0f6a70, 0x66063bca, 0x11010b5c, 0x8f659eff, 0xf862ae69,
    0x616bffd3, 0x166ccf45, 0xa00ae278, 0xd70dd2ee, 0x4e048354, 0x3903b3c2,
    0xa7672661, 0xd06016f7, 0x4969474d, 0x3e6e77db, 0xaed16a4a, 0xd9d65adc,
    0x40df0b66, 0x37d83bf0, 0xa9bcae53, 0xdebb9ec5, 0x47b2cf7f, 0x30b5ffe9,
    0xbdbdf21c, 0xcabac28a, 0x53b39330, 0x24b4a3a6, 0xbad03605, 0xcdd70693,
    0x54de5729, 0x23d967bf, 0xb3667a2e, 0xc4614ab8, 0x5d681b02, 0x2a6f2b94,
    0xb40bbe37, 0xc30c8ea1, 0x5a05df1b, 0x2d02ef8d]

/-- One bit of `make_crc_table`. -/
def crcBit (c : UInt32) : UInt32 :=
  if c &&& 1 ≠ 0 then (0xedb88320 : UInt32) ^^^ (c >>> 1) else c >>> 1

/-- The table holds what `make_crc_table` computes. -/
theorem crcTable_eq :
    crcTable = (List.range 256).map fun n => crcBit^[8] (UInt32.ofNat n) := by
  decide +kernel

/-- `DO1`. -/
def crcByte (crc : UInt32) (b : UInt8) : UInt32 :=
  crcTable.getD ((crc ^^^ b.toUInt32) &&& 0xff).toNat 0 ^^^ (crc >>> 8)

/-- `crc32`. -/
def crc32 (crc : UInt32) (buf : List UInt8) : UInt32 :=
  buf.foldl crcByte (crc ^^^ 0xffffffff) ^^^ 0xffffffff

/-- `crc32_no_comp`. -/
def crc32NoComp (crc : UInt32) (buf : List UInt8) : UInt32 :=
  buf.foldl crcByte crc

/-!
## The end of a checksummed buffer

The checksum of a buffer determines the last four bytes of it: two buffers that
differ in these bytes only have different checksums.
-/

/-! ## One byte -/

/-- The register after its low byte has gone through the table. -/
def crcAdvance (x : ℕ) : ℕ :=
  (crcTable.getD (x % 256) 0).toNat ^^^ (x / 256)

theorem crcByte_toNat (crc : UInt32) (b : UInt8) :
    (crcByte crc b).toNat = crcAdvance (crc.toNat ^^^ b.toNat) := by
  have hlow : ((crc ^^^ b.toUInt32) &&& 0xff).toNat =
      (crc.toNat ^^^ b.toNat) % 256 := by
    rw [UInt32.toNat_and, UInt32.toNat_xor, UInt8.toNat_toUInt32]
    exact Nat.and_two_pow_sub_one_eq_mod _ 8
  have hhigh : (crc >>> 8).toNat = (crc.toNat ^^^ b.toNat) / 256 := by
    have hb : b.toNat / 2 ^ 8 = 0 := Nat.div_eq_of_lt b.toNat_lt
    rw [UInt32.toNat_shiftRight]
    change crc.toNat >>> 8 = (crc.toNat ^^^ b.toNat) / 2 ^ 8
    rw [← Nat.shiftRight_eq_div_pow, Nat.shiftRight_xor_distrib,
      Nat.shiftRight_eq_div_pow b.toNat, hb, Nat.xor_zero]
  rw [crcByte, UInt32.toNat_xor, hlow, hhigh, crcAdvance]

/-- The highest bytes of the entries. -/
def crcHighBytes : List ℕ := crcTable.map fun t => t.toNat / 2 ^ 24

/-- The members of a list as the bits of a number. -/
def bitsOf (l : List ℕ) : ℕ := l.foldr (fun k acc => acc ||| 2 ^ k) 0

theorem testBit_bitsOf (l : List ℕ) (v : ℕ) :
    (bitsOf l).testBit v = true ↔ v ∈ l := by
  induction l with
  | nil => simp [bitsOf]
  | cons k l ih =>
      have hcons : bitsOf (k :: l) = bitsOf l ||| 2 ^ k := rfl
      rw [hcons, Nat.testBit_or, Bool.or_eq_true, ih, Nat.testBit_two_pow,
        decide_eq_true_iff, List.mem_cons, or_comm, eq_comm]

theorem crcTable_length : crcTable.length = 256 := by
  rw [crcTable_eq, List.length_map, List.length_range]

theorem bitsOf_crcHighBytes : bitsOf crcHighBytes = 2 ^ 256 - 1 := by
  decide +kernel

/-- The entries of the table differ in their highest byte: every byte is the
highest of one of the 256 entries. -/
theorem crcHighBytes_nodup : crcHighBytes.Nodup := by
  have hsubset : List.range 256 ⊆ crcHighBytes := by
    intro v hv
    have hlt := List.mem_range.mp hv
    rw [← testBit_bitsOf, bitsOf_crcHighBytes, Nat.testBit_two_pow_sub_one]
    exact decide_eq_true hlt
  have hlen : crcHighBytes.length = 256 := by rw [crcHighBytes, List.length_map, crcTable_length]
  have hperm := (List.subperm_of_subset List.nodup_range hsubset).perm_of_length_le
    (by rw [hlen, List.length_range])
  exact hperm.nodup_iff.mp List.nodup_range

theorem crcTable_injective {i j : ℕ} (hi : i < 256) (hj : j < 256)
    (h : (crcTable.getD i 0).toNat / 2 ^ 24 =
      (crcTable.getD j 0).toNat / 2 ^ 24) : i = j := by
  have hlen := crcTable_length
  have hne := List.pairwise_map.mp crcHighBytes_nodup
  rw [List.pairwise_iff_getElem] at hne
  rw [List.getD_eq_getElem _ _ (by omega), List.getD_eq_getElem _ _ (by omega)]
    at h
  rcases Nat.lt_trichotomy i j with hlt | rfl | hgt
  · exact absurd h (hne i j (by omega) (by omega) hlt)
  · rfl
  · exact absurd h.symm (hne j i (by omega) (by omega) hgt)

/-- Registers that agree above bit `s` after a step have had the same low byte
and have agreed eight bits higher. -/
theorem crcAdvance_agree {x y s : ℕ} (hx : x < 2 ^ 32) (hy : y < 2 ^ 32)
    (hs : s ≤ 24) (h : crcAdvance x >>> s = crcAdvance y >>> s) :
    x % 256 = y % 256 ∧ x >>> (s + 8) = y >>> (s + 8) := by
  have hdiv : ∀ z, z / 256 = z >>> 8 := fun z =>
    (Nat.shiftRight_eq_div_pow z 8).symm
  have hout : ∀ {z : ℕ}, z < 2 ^ 32 →
      crcAdvance z / 2 ^ 24 = (crcTable.getD (z % 256) 0).toNat / 2 ^ 24 := by
    intro z hz
    have hzero : (z / 256) / 2 ^ 24 = 0 := by omega
    rw [crcAdvance, ← Nat.shiftRight_eq_div_pow, Nat.shiftRight_xor_distrib,
      Nat.shiftRight_eq_div_pow, Nat.shiftRight_eq_div_pow, hzero,
      Nat.xor_zero]
  have hlow : x % 256 = y % 256 := by
    refine crcTable_injective (Nat.mod_lt _ (by decide))
      (Nat.mod_lt _ (by decide)) ?_
    rw [← hout hx, ← hout hy, ← Nat.shiftRight_eq_div_pow,
      ← Nat.shiftRight_eq_div_pow, ← Nat.add_sub_cancel' hs,
      Nat.shiftRight_add, Nat.shiftRight_add, h]
  refine ⟨hlow, ?_⟩
  rw [crcAdvance, crcAdvance, hlow, Nat.shiftRight_xor_distrib,
    Nat.shiftRight_xor_distrib, hdiv, hdiv, ← Nat.shiftRight_add,
    ← Nat.shiftRight_add, Nat.add_comm 8 s] at h
  exact Nat.xor_right_injective h

/-! ## The last four bytes -/

/-- A byte changes the low byte of the register only. -/
theorem xor_byte_shift (crc : UInt32) (b : UInt8) {s : ℕ} (hs : 8 ≤ s) :
    (crc.toNat ^^^ b.toNat) >>> s = crc.toNat >>> s := by
  have hb : b.toNat >>> s = 0 := by
    rw [Nat.shiftRight_eq_div_pow]
    refine Nat.div_eq_of_lt (lt_of_lt_of_le b.toNat_lt ?_)
    exact Nat.pow_le_pow_right (by decide) hs
  rw [Nat.shiftRight_xor_distrib, hb, Nat.xor_zero]

theorem xor_byte_lt (crc : UInt32) (b : UInt8) :
    crc.toNat ^^^ b.toNat < 2 ^ 32 := by
  have hb : b.toNat < 2 ^ 32 := lt_of_lt_of_le b.toNat_lt (by decide)
  exact Nat.xor_lt_two_pow crc.toNat_lt hb

/-- What two steps that end alike above bit `s` have had in common. -/
theorem crcByte_agree {c c' : UInt32} {b b' : UInt8} {s : ℕ} (hs : s ≤ 24)
    (h : (crcByte c b).toNat >>> s = (crcByte c' b').toNat >>> s) :
    (c.toNat ^^^ b.toNat) % 256 = (c'.toNat ^^^ b'.toNat) % 256 ∧
      c.toNat >>> (s + 8) = c'.toNat >>> (s + 8) := by
  rw [crcByte_toNat, crcByte_toNat] at h
  obtain ⟨hlow, hhigh⟩ :=
    crcAdvance_agree (xor_byte_lt c b) (xor_byte_lt c' b') hs h
  rw [xor_byte_shift c b (by omega), xor_byte_shift c' b' (by omega)] at hhigh
  exact ⟨hlow, hhigh⟩

theorem byte_of_xor {c : UInt32} {b b' : UInt8}
    (h : (c.toNat ^^^ b.toNat) % 256 = (c.toNat ^^^ b'.toNat) % 256) :
    b = b' := by
  have hmod : ∀ d : UInt8,
      (c.toNat ^^^ d.toNat) % 256 = (c.toNat % 256) ^^^ d.toNat := by
    intro d
    have hd : d.toNat % 2 ^ 8 = d.toNat := Nat.mod_eq_of_lt d.toNat_lt
    change (c.toNat ^^^ d.toNat) % 2 ^ 8 = (c.toNat % 2 ^ 8) ^^^ d.toNat
    rw [Nat.xor_mod_two_pow, hd]
  rw [hmod, hmod] at h
  exact UInt8.toNat_inj.mp (Nat.xor_right_injective h)

/-- From one register, four bytes are determined by the register they lead
to. -/
theorem crcByte_four {c : UInt32} {b₀ b₁ b₂ b₃ d₀ d₁ d₂ d₃ : UInt8}
    (h : [b₀, b₁, b₂, b₃].foldl crcByte c = [d₀, d₁, d₂, d₃].foldl crcByte c) :
    [b₀, b₁, b₂, b₃] = [d₀, d₁, d₂, d₃] := by
  simp only [List.foldl_cons, List.foldl_nil] at h
  -- backwards: each step has eight bits less in common
  obtain ⟨h₃, hshift₃⟩ := crcByte_agree (s := 0) (by omega)
    (congrArg (fun c => c.toNat >>> 0) h)
  obtain ⟨h₂, hshift₂⟩ := crcByte_agree (by omega) hshift₃
  obtain ⟨h₁, hshift₁⟩ := crcByte_agree (by omega) hshift₂
  obtain ⟨h₀, -⟩ := crcByte_agree (by omega) hshift₁
  -- forwards: equal registers and low bytes give equal bytes
  obtain rfl := byte_of_xor h₀
  obtain rfl := byte_of_xor h₁
  obtain rfl := byte_of_xor h₂
  obtain rfl := byte_of_xor h₃
  rfl

/-- The last four bytes are determined by the checksum and the bytes before
them. -/
theorem crc32_tail {c : UInt32} {l t t' : List UInt8} (ht : t.length = 4)
    (ht' : t'.length = 4) :
    crc32 c (l ++ t) = crc32 c (l ++ t') ↔ t = t' := by
  constructor
  · intro h
    unfold crc32 at h
    rw [List.foldl_append, List.foldl_append] at h
    have hregister := (UInt32.xor_left_inj _).mp h
    match t, ht, t', ht' with
    | [_, _, _, _], _, [_, _, _, _], _ => exact crcByte_four hregister
  · rintro rfl
    rfl

end TateFirmware.LibGeneric
