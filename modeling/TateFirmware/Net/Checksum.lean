import Mathlib.Data.Nat.ModEq
import TateFirmware.Net.Ethernet

/-!
# The checksum of an IP header

The `ushort`s of a header are added up and the carries are added in twice, which is
addition modulo `0xFFFF`.  A header is accepted if its sum is `0` modulo `0xFFFF`;
`NetSetIP` stores the complement of the sum of the other words.
-/

namespace TateFirmware.Net

open Support

/-- The test of `NetCksumOk`. -/
def netCksumTest (ptr : List UInt8) : Bool := (netCksum ptr + 1) &&& 0xfffe = 0

/-- The `ushort` of two bytes. -/
def ushort (a b : UInt8) : ℕ := a.toNat + b.toNat * 2 ^ 8

/-- Word `i` of a header. -/
def headerWord (hdr : Octets 20) (i : ℕ) : ℕ :=
  ushort (hdr.1.getD (2 * i) 0) (hdr.1.getD (2 * i + 1) 0)

/-- A header with another word `i`. -/
def setHeaderWord (hdr : Octets 20) (i : ℕ) (a b : UInt8) : List UInt8 :=
  overwrite hdr.1 (2 * i) [a, b]

/-! ## Sums modulo `0xFFFF` -/

theorem ushort_lt (a b : UInt8) : ushort a b < 2 ^ 16 := by
  have ha := a.toNat_lt
  have hb := b.toNat_lt
  unfold ushort
  omega

theorem shortSum_append {xs : List UInt8} (hxs : xs.length % 2 = 0) (ys : List UInt8) :
    shortSum (xs ++ ys) = shortSum xs + shortSum ys := by
  induction xs using shortSum.induct with
  | case1 a b rest ih =>
      rw [List.length_cons, List.length_cons] at hxs
      rw [List.cons_append, List.cons_append, shortSum, shortSum, ih (by omega)]
      omega
  | case2 xs hpair =>
      match xs with
      | [] => simp [shortSum]
      | [a] => simp at hxs
      | a :: b :: rest => exact absurd rfl (hpair a b rest)

/-- A header is too short for its sum to overflow. -/
theorem shortSum_le (xs : List UInt8) : shortSum xs ≤ xs.length * 2 ^ 15 := by
  induction xs using shortSum.induct with
  | case1 a b rest ih =>
      have hlt := ushort_lt a b
      rw [shortSum, List.length_cons, List.length_cons]
      unfold ushort at hlt
      omega
  | case2 xs hpair =>
      match xs with
      | [] => simp [shortSum]
      | [a] => simp [shortSum]
      | a :: b :: rest => exact absurd rfl (hpair a b rest)

/-- Adding in the carries keeps a sum modulo `0xFFFF`. -/
theorem carry_mod (n : ℕ) : (n % 2 ^ 16 + n / 2 ^ 16) % 0xffff = n % 0xffff := by
  have hsplit : n = n % 2 ^ 16 + n / 2 ^ 16 + n / 2 ^ 16 * 0xffff := by omega
  conv_rhs => rw [hsplit, Nat.add_mul_mod_self_right]

/-- Two carries are enough below `2 ^ 32`, and they keep the sum modulo `0xFFFF`. -/
theorem netCksum_spec {ptr : List UInt8} (h : shortSum ptr < 2 ^ 32) :
    netCksum ptr ≤ 0xffff ∧ netCksum ptr % 0xffff = shortSum ptr % 0xffff := by
  have hfirst := carry_mod (shortSum ptr)
  have hsecond := carry_mod (shortSum ptr % 2 ^ 16 + shortSum ptr / 2 ^ 16)
  unfold netCksum
  dsimp only
  generalize hx : shortSum ptr % 2 ^ 16 + shortSum ptr / 2 ^ 16 = x at *
  have hsmall : x % 2 ^ 16 + x / 2 ^ 16 < 2 ^ 16 := by omega
  rw [Nat.mod_eq_of_lt hsmall]
  exact ⟨by omega, hsecond.trans hfirst⟩

theorem and_fffe_eq_zero_iff (n : ℕ) : n &&& 0xfffe = 0 ↔ n / 2 % 2 ^ 15 = 0 := by
  have hhalf : (n &&& 0xfffe) / 2 = n / 2 % 2 ^ 15 := by
    rw [Nat.and_div_two]
    exact Nat.and_two_pow_sub_one_eq_mod (n / 2) 15
  have heven : (n &&& 0xfffe) % 2 = 0 := by
    rw [Nat.and_mod_two_pow (n := 1)]
    simp
  omega

/-- The test that the code makes of the sum plus one. -/
theorem cksumBits_iff {n : ℕ} (h : n ≤ 0xffff) :
    (n + 1) &&& 0xfffe = 0 ↔ n = 0 ∨ n = 0xffff := by
  rw [and_fffe_eq_zero_iff]
  omega

/-- The test accepts the two words that are `0` modulo `0xFFFF`. -/
theorem netCksumTest_iff {ptr : List UInt8} (h : shortSum ptr < 2 ^ 32) :
    netCksumTest ptr = true ↔ shortSum ptr % 0xffff = 0 := by
  obtain ⟨hle, hmod⟩ := netCksum_spec h
  rw [netCksumTest, decide_eq_true_eq, cksumBits_iff hle, ← hmod]
  omega

theorem shortSum_header_lt {hdr : List UInt8} (h : hdr.length = 20) :
    shortSum hdr < 2 ^ 32 := by
  have hle := shortSum_le hdr
  omega

/-! ## The header of `NetSetIP` -/

/-- The words of a header in front of the checksum and behind it, and the checksum
that completes them. -/
theorem cksum_completes {front back : List UInt8} (hfront : front.length = 10)
    (hback : back.length = 8) :
    let sum := 0xffff - netCksum (front ++ [0, 0] ++ back)
    netCksumTest (front ++ [UInt8.ofNat sum, UInt8.ofNat (sum / 2 ^ 8)] ++ back) =
      true := by
  intro sum
  have hsum (lo hi : UInt8) : shortSum (front ++ [lo, hi] ++ back) =
      shortSum front + shortSum back + ushort lo hi := by
    rw [List.append_assoc, shortSum_append (by rw [hfront]), List.cons_append,
      List.cons_append, List.nil_append, shortSum, ushort]
    omega
  have hlength (lo hi : UInt8) : (front ++ [lo, hi] ++ back).length = 20 := by
    simp [hfront, hback]
  obtain ⟨hle, hmod⟩ := netCksum_spec (shortSum_header_lt (hlength 0 0))
  have hword : ushort (UInt8.ofNat sum) (UInt8.ofNat (sum / 2 ^ 8)) =
      0xffff - netCksum (front ++ [0, 0] ++ back) := by
    have hlt : sum < 2 ^ 16 := by omega
    rw [ushort, UInt8.toNat_ofNat', UInt8.toNat_ofNat']
    change sum % 2 ^ 8 + sum / 2 ^ 8 % 2 ^ 8 * 2 ^ 8 = sum
    omega
  rw [netCksumTest_iff (shortSum_header_lt (hlength _ _)), hsum, hword]
  rw [hsum, show ushort 0 0 = 0 from rfl] at hmod
  omega

theorem netSetIP_take (st : NetGlobals) (dest : IPaddr) (dport sport len : ℕ) :
    netCksumTest ((netSetIP st dest dport sport len).take 20) = true := by
  have hfront : ([0x45, 0] ++ htons (ipHdrSize + len) ++ htons st.netIPID ++
      htons 0x4000 ++ [255, 17] : List UInt8).length = 10 := rfl
  have hback : (st.netOurIP.1 ++ dest.1).length = 8 := by
    rw [List.length_append, st.netOurIP.2, dest.2]
  have hcomplete := cksum_completes hfront hback
  dsimp only at hcomplete
  have htake (l rest : List UInt8) (hl : l.length = 20) : (l ++ rest).take 20 = l :=
    List.take_left' hl
  unfold netSetIP
  dsimp only
  rw [List.append_assoc, List.append_assoc, List.append_assoc, htake]
  · exact hcomplete
  · rw [List.length_append, List.length_append, hfront, hback]
    rfl

/-! ## A changed word -/

theorem header_split (hdr : Octets 20) {i : ℕ} (hi : i < 10) :
    hdr.1 = hdr.1.take (2 * i) ++ [hdr.1.getD (2 * i) 0, hdr.1.getD (2 * i + 1) 0] ++
      hdr.1.drop (2 * i + 2) := by
  have hlen := hdr.2
  have hfirst : 2 * i < hdr.1.length := by omega
  have hsecond : 2 * i + 1 < hdr.1.length := by omega
  rw [List.getD_eq_getElem _ _ hfirst, List.getD_eq_getElem _ _ hsecond,
    List.append_assoc, List.cons_append, List.cons_append, List.nil_append,
    ← List.drop_eq_getElem_cons hsecond, ← List.drop_eq_getElem_cons hfirst,
    List.take_append_drop]

/-- The sum of a header with another word. -/
theorem shortSum_setHeaderWord (hdr : Octets 20) {i : ℕ} (hi : i < 10) (a b : UInt8) :
    shortSum (setHeaderWord hdr i a b) + headerWord hdr i =
      shortSum hdr.1 + ushort a b := by
  have hlen := hdr.2
  have heven : (hdr.1.take (2 * i)).length % 2 = 0 := by
    rw [List.length_take]
    omega
  have hsum (x y : UInt8) :
      shortSum (hdr.1.take (2 * i) ++ [x, y] ++ hdr.1.drop (2 * i + 2)) =
        shortSum (hdr.1.take (2 * i)) + ushort x y +
          shortSum (hdr.1.drop (2 * i + 2)) := by
    rw [List.append_assoc, shortSum_append heven, List.cons_append, List.cons_append,
      List.nil_append, shortSum, ushort]
    omega
  have hset := hsum a b
  have hold := hsum (hdr.1.getD (2 * i) 0) (hdr.1.getD (2 * i + 1) 0)
  rw [← header_split hdr hi] at hold
  change shortSum (setHeaderWord hdr i a b) = _ at hset
  rw [hset, hold, headerWord]
  omega

theorem setHeaderWord_length (hdr : Octets 20) {i : ℕ} (hi : i < 10) (a b : UInt8) :
    (setHeaderWord hdr i a b).length = 20 := by
  have hlen := hdr.2
  rw [setHeaderWord, overwrite_length, hlen]
  change 2 * i + 2 ≤ hdr.1.length
  omega

/-- A header built by `NetSetIP` passes the test, and a header that passes fails when
one of its words is changed to another one modulo `0xFFFF`. -/
theorem netCksumTest_netSetIP_and_detects :
    (∀ (st : NetGlobals) (dest : IPaddr) (dport sport len : ℕ),
      netCksumTest ((netSetIP st dest dport sport len).take 20) = true) ∧
    ∀ hdr : Octets 20, netCksumTest hdr.1 = true → ∀ i < 10, ∀ a b : UInt8,
      ¬ ushort a b ≡ headerWord hdr i [MOD 0xffff] →
        netCksumTest (setHeaderWord hdr i a b) = false := by
  refine ⟨netSetIP_take, ?_⟩
  intro hdr hpass i hi a b hother
  rw [netCksumTest_iff (shortSum_header_lt hdr.2)] at hpass
  rw [← Bool.not_eq_true,
    netCksumTest_iff (shortSum_header_lt (setHeaderWord_length hdr hi a b))]
  intro hzero
  have hsum := shortSum_setHeaderWord hdr hi a b
  apply hother
  unfold Nat.ModEq
  omega

end TateFirmware.Net
