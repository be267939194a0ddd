import Mathlib.Tactic.IntervalCases
import TateFirmware.LibGeneric.Decimal

/-!
# Numbers and addresses as text

Commands hand numbers to each other as text: `number` of `lib_generic/vsprintf.c`
prints them and `simple_strtoul` reads them.  `ip_to_string` and `string_to_ip` of
`net/net.c` do the same for an address, which is kept in network byte order.
-/

namespace TateFirmware.Net

open LibGeneric

/-- `___swab32`. -/
def swab32 (x : UInt32) : UInt32 :=
  ((x &&& 0x000000ff) <<< 24) ||| ((x &&& 0x0000ff00) <<< 8) |||
    ((x &&& 0x00ff0000) >>> 8) ||| ((x &&& 0xff000000) >>> 24)

/-- `ntohl` of a little-endian processor. -/
def ntohl (x : UInt32) : UInt32 := swab32 x

/-- `htonl`. -/
def htonl (x : UInt32) : UInt32 := swab32 x

/-- `ip_to_string`. -/
def ipToString (x : UInt32) : List UInt8 :=
  let x := ntohl x
  formatInt ((x >>> 24) &&& 0xff).toNat ++ text "." ++
    formatInt ((x >>> 16) &&& 0xff).toNat ++ text "." ++
    formatInt ((x >>> 8) &&& 0xff).toNat ++ text "." ++
    formatInt ((x >>> 0) &&& 0xff).toNat

/-- The loop of `string_to_ip` with `count` of its rounds to go. -/
def stringToIpLoop : ℕ → UInt32 → List UInt8 → UInt32
  | 0, addr, _ => addr
  | count + 1, addr, s =>
      let (val, e) := simpleStrtoul s 10
      let addr := (addr <<< 8) ||| (UInt32.ofNat val &&& 0xff)
      stringToIpLoop count addr (if peek e ≠ 0 then e.tail else e)

/-- `string_to_ip`; `none` is a null pointer. -/
def stringToIp : Option (List UInt8) → UInt32
  | none => 0
  | some s => htonl (stringToIpLoop 4 0 s)

/-! ## Reading an address back -/

theorem swab32_swab32 (x : UInt32) : swab32 (swab32 x) = x := by
  apply UInt32.toBitVec_inj.mp
  apply BitVec.eq_of_getLsbD_eq
  intro i hi
  simp only [swab32, UInt32.toBitVec_or, UInt32.toBitVec_and,
    UInt32.toBitVec_shiftLeft, UInt32.toBitVec_shiftRight]
  interval_cases i <;> simp

/-- An address is put together from its four bytes. -/
theorem join_octets (x : UInt32) :
    ((((((((0 : UInt32) <<< 8) ||| ((x >>> 24) &&& 0xff)) <<< 8) |||
      ((x >>> 16) &&& 0xff)) <<< 8) ||| ((x >>> 8) &&& 0xff)) <<< 8) |||
        ((x >>> 0) &&& 0xff) = x := by
  apply UInt32.toBitVec_inj.mp
  apply BitVec.eq_of_getLsbD_eq
  intro i hi
  simp only [UInt32.toBitVec_or, UInt32.toBitVec_and,
    UInt32.toBitVec_shiftLeft, UInt32.toBitVec_shiftRight]
  interval_cases i <;> simp

theorem octet_lt (x : UInt32) : (x &&& 0xff).toNat < 256 := by
  rw [UInt32.toNat_and]
  exact Nat.lt_succ_of_le Nat.and_le_right

/-- What stands behind a part of the address: the next part or the end. -/
def restParts : Option (List UInt8) → List UInt8
  | none => []
  | some s => text "." ++ s

/-- One round reads one part of the address. -/
theorem stringToIpLoop_octet (count : ℕ) (addr x : UInt32)
    (next : Option (List UInt8)) :
    stringToIpLoop (count + 1) addr
        (formatInt (x &&& 0xff).toNat ++ restParts next) =
      stringToIpLoop count ((addr <<< 8) ||| (x &&& 0xff)) (next.getD []) := by
  have hoctet := octet_lt x
  have hformat : formatInt (x &&& 0xff).toNat =
      number (x &&& 0xff).toNat 10 0 ⟨false, false⟩ :=
    formatInt_of_lt (hoctet.trans (by decide))
  have hrest : EndsNumber 10 (restParts next) ∧
      peek (restParts next) ≠ ch 'x' := by
    cases next with
    | none =>
        refine ⟨?_, by decide⟩
        intro c hc
        cases hc
    | some s =>
        have hdot : ¬ (isxdigit (ch '.') && digitValue (ch '.') < 10) = true ∧
            ch '.' ≠ ch 'x' := by decide
        refine ⟨?_, hdot.2⟩
        intro c hc
        obtain rfl := Option.some.inj hc
        exact hdot.1
  have hread := simpleStrtoul_number (by decide) (by decide)
    (show (x &&& 0xff).toNat < 2 ^ 32 by omega) hrest.1 hrest.2
  have hself : (x &&& 0xff) &&& 0xff = x &&& 0xff := by
    rw [UInt32.and_assoc, UInt32.and_self]
  rw [stringToIpLoop, hformat, hread]
  simp only [UInt32.ofNat_toNat, hself]
  cases next with
  | none => rfl
  | some s => rfl

theorem stringToIp_ipToString (x : UInt32) :
    stringToIp (some (ipToString x)) = x := by
  have hloop : ∀ y : UInt32, stringToIpLoop 4 0
      (formatInt ((y >>> 24) &&& 0xff).toNat ++ restParts
        (formatInt ((y >>> 16) &&& 0xff).toNat ++ restParts
          (formatInt ((y >>> 8) &&& 0xff).toNat ++ restParts
            (formatInt ((y >>> 0) &&& 0xff).toNat ++ restParts none)))) = y := by
    intro y
    rw [stringToIpLoop_octet, Option.getD_some, stringToIpLoop_octet,
      Option.getD_some, stringToIpLoop_octet, Option.getD_some,
      stringToIpLoop_octet]
    exact join_octets y
  have htext : ipToString x =
      formatInt ((ntohl x >>> 24) &&& 0xff).toNat ++ restParts
        (formatInt ((ntohl x >>> 16) &&& 0xff).toNat ++ restParts
          (formatInt ((ntohl x >>> 8) &&& 0xff).toNat ++ restParts
            (formatInt ((ntohl x >>> 0) &&& 0xff).toNat ++ restParts none))) := by
    simp [ipToString, restParts, List.append_assoc]
  rw [htext, stringToIp, hloop]
  exact swab32_swab32 x

/-- Every 32-bit number is read back from the text it is printed as, and every
address is. -/
theorem numbers_read_back (x : UInt32) :
    simpleStrtoul (formatHex x.toNat) 16 = (x.toNat, []) ∧
      simpleStrtoul (text "0x" ++ formatHex x.toNat) 16 = (x.toNat, []) ∧
      simpleStrtoul (formatUnsigned x.toNat) 10 = (x.toNat, []) ∧
      stringToIp (some (ipToString x)) = x := by
  have hends : ∀ base, EndsNumber base [] := fun base c hc => nomatch hc
  have hx : peek [] ≠ ch 'x' := by decide
  have hread : ∀ base, 2 ≤ base → base ≤ 16 →
      simpleStrtoul (number x.toNat base 0 ⟨false, false⟩) base =
        (x.toNat, []) := by
    intro base hbase hle
    have h := simpleStrtoul_number hbase hle x.toNat_lt (hends base) hx
    rwa [List.append_nil] at h
  exact ⟨hread 16 (by decide) (by decide), simpleStrtoul_formatHex x.toNat_lt,
    hread 10 (by decide) (by decide), stringToIp_ipToString x⟩

end TateFirmware.Net
