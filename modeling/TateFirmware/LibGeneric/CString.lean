import Mathlib.Algebra.Order.Ring.Nat
import Mathlib.Data.List.Basic
import Mathlib.Data.List.TakeWhile
import Mathlib.Data.Nat.Digits.Lemmas
import Mathlib.Tactic.Ring

/-!
# C strings, number formatting and number parsing

Characters are bytes.  A C string is the list of bytes up to its terminating
NUL; a buffer holding one may have bytes behind the terminator, and reading
past the end of a buffer reads NUL bytes.  `number` and `simpleStrtoul` follow
`lib_generic/vsprintf.c`, with the conversion flags its callers here use.
-/

namespace TateFirmware.LibGeneric

/-- The byte of an ASCII character. -/
def ch (c : Char) : UInt8 := UInt8.ofNat c.toNat

/-- The bytes of an ASCII text. -/
def text (s : String) : List UInt8 := s.toList.map ch

/-- The C string at the start of a buffer. -/
def cstr (buf : List UInt8) : List UInt8 := buf.takeWhile (· ≠ 0)

/-- `memcmp(buf, s, strlen(s)) == 0`. -/
def startsWith (buf : List UInt8) (s : String) : Bool :=
  (text s).isPrefixOf buf

/-- `*cp`, the NUL byte at the end of the string. -/
def peek : List UInt8 → UInt8
  | [] => 0
  | c :: _ => c

def isdigit (c : UInt8) : Bool := ch '0' ≤ c && c ≤ ch '9'

def islower (c : UInt8) : Bool := ch 'a' ≤ c && c ≤ ch 'z'

def isxdigit (c : UInt8) : Bool :=
  isdigit c || (ch 'a' ≤ c && c ≤ ch 'f') || (ch 'A' ≤ c && c ≤ ch 'F')

def toupper (c : UInt8) : UInt8 := if islower c then c - 32 else c

/-- The digit value `simple_strtoul` computes for a hexadecimal digit. -/
def digitValue (c : UInt8) : ℕ :=
  if isdigit c then c.toNat - 48 else (toupper c).toNat - 65 + 10

/-- The digit loop of `simple_strtoul`: the value and the first byte that is
not a digit of the base.  An `unsigned long` has 32 bits. -/
def strtoulLoop (base : ℕ) : ℕ → List UInt8 → ℕ × List UInt8
  | result, [] => (result, [])
  | result, c :: cp =>
      if isxdigit c && digitValue c < base then
        strtoulLoop base ((result * base + digitValue c) % 2 ^ 32) cp
      else (result, c :: cp)

attribute [grind =] strtoulLoop

/-- `simple_strtoul(cp, &endp, base)`. -/
def simpleStrtoul (cp : List UInt8) (base : ℕ) : ℕ × List UInt8 :=
  if peek cp = ch '0' then
    let cp := cp.tail
    if peek cp = ch 'x' && isxdigit (peek cp.tail) then
      strtoulLoop 16 0 cp.tail
    else strtoulLoop (if base = 0 then 8 else base) 0 cp
  else strtoulLoop (if base = 0 then 10 else base) 0 cp

/-- The conversion flags `ZEROPAD` and `SIGN` of `vsprintf`. -/
structure NumberFlags where
  zeropad : Bool
  sign : Bool

/-- `digits[d]` for the digit table of `number`. -/
def digitChar (d : ℕ) : UInt8 :=
  (text "0123456789abcdefghijklmnopqrstuvwxyz").getD d 0

/-- `number(str, num, base, size, -1, type)` on the 32-bit pattern `num`; a
missing field width is `size = 0`, which pads nothing either. -/
def number (num base size : ℕ) (type : NumberFlags) : List UInt8 :=
  let negative := type.sign && 2 ^ 31 ≤ num
  let magnitude := if negative then 2 ^ 32 - num else num
  let sign := if negative then [ch '-'] else []
  let tmp := if magnitude = 0 then [ch '0']
    else ((Nat.digits base magnitude).map digitChar).reverse
  let pad := size - sign.length - tmp.length
  if type.zeropad then sign ++ List.replicate pad (ch '0') ++ tmp
  else List.replicate pad (ch ' ') ++ sign ++ tmp

/-- `%x`. -/
def formatHex (num : ℕ) : List UInt8 := number num 16 0 ⟨false, false⟩

/-- `%08x`. -/
def formatHex08 (num : ℕ) : List UInt8 := number num 16 8 ⟨true, false⟩

/-- `%lu`. -/
def formatUnsigned (num : ℕ) : List UInt8 := number num 10 0 ⟨false, false⟩

/-- `%d`. -/
def formatInt (num : ℕ) : List UInt8 := number num 10 0 ⟨false, true⟩

theorem strtoulLoop_lt {base result : ℕ} {cp : List UInt8}
    (h : result < 2 ^ 32) : (strtoulLoop base result cp).1 < 2 ^ 32 := by
  induction cp generalizing result with
  | nil => exact h
  | cons c cp ih =>
      rw [strtoulLoop]
      split
      · exact ih (Nat.mod_lt _ (by decide))
      · exact h

/-- The value fits an `unsigned long`. -/
theorem simpleStrtoul_lt (cp : List UInt8) (base : ℕ) :
    (simpleStrtoul cp base).1 < 2 ^ 32 := by
  unfold simpleStrtoul
  split
  · dsimp only
    split
    · exact strtoulLoop_lt (by decide)
    · exact strtoulLoop_lt (by decide)
  · exact strtoulLoop_lt (by decide)

/-! ## Reading back hexadecimal numbers -/

theorem digitValue_digitChar {d : ℕ} (hd : d < 16) :
    isxdigit (digitChar d) = true ∧ digitValue (digitChar d) = d ∧
      digitChar d ≠ ch 'x' := by
  have hall : ∀ e ∈ List.range 16, isxdigit (digitChar e) = true ∧
      digitValue (digitChar e) = e ∧ digitChar e ≠ ch 'x' := by decide
  exact hall d (List.mem_range.mpr hd)

/-- The number of a list of hexadecimal digits, the most significant one
first. -/
def hexValue (result : ℕ) (digits : List ℕ) : ℕ :=
  digits.foldl (fun r d => r * 16 + d) result

theorem hexValue_mod (result : ℕ) (digits : List ℕ) :
    hexValue (result % 2 ^ 32) digits % 2 ^ 32 =
      hexValue result digits % 2 ^ 32 := by
  unfold hexValue
  induction digits generalizing result with
  | nil => simp
  | cons d digits ih =>
      rw [List.foldl_cons, List.foldl_cons, ← ih, ← ih (result * 16 + d)]
      congr 2
      rw [Nat.add_mod, Nat.mul_mod, Nat.mod_mod, ← Nat.mul_mod, ← Nat.add_mod]

theorem strtoulLoop_digits {digits : List ℕ} (hdigits : ∀ d ∈ digits, d < 16)
    (result : ℕ) (hresult : result < 2 ^ 32) :
    strtoulLoop 16 result (digits.map digitChar) =
      (hexValue result digits % 2 ^ 32, []) := by
  induction digits generalizing result with
  | nil =>
      simp only [hexValue, List.map_nil, List.foldl_nil, strtoulLoop,
        Nat.mod_eq_of_lt hresult]
  | cons d digits ih =>
      rw [List.forall_mem_cons] at hdigits
      obtain ⟨hx, hvalue, -⟩ := digitValue_digitChar hdigits.1
      rw [List.map_cons, strtoulLoop, hx, hvalue]
      simp only [Bool.true_and, decide_eq_true_eq, if_pos hdigits.1]
      rw [ih hdigits.2 _ (Nat.mod_lt _ (by decide)), hexValue_mod]
      rfl

/-- Hexadecimal digits are read back as their number. -/
theorem simpleStrtoul_digits {digits : List ℕ}
    (hdigits : ∀ d ∈ digits, d < 16) :
    simpleStrtoul (digits.map digitChar) 16 =
      (hexValue 0 digits % 2 ^ 32, []) := by
  unfold simpleStrtoul
  split
  · rename_i hzero
    have hnotx : ¬ (peek (digits.map digitChar).tail = ch 'x') := by
      rw [← List.map_tail]
      cases htail : digits.tail with
      | nil => decide
      | cons d rest =>
          have hd : d ∈ digits :=
            List.mem_of_mem_tail (htail ▸ List.mem_cons_self)
          exact (digitValue_digitChar (hdigits d hd)).2.2
    have htail : strtoulLoop 16 0 (digits.map digitChar).tail =
        (hexValue 0 digits.tail % 2 ^ 32, []) := by
      rw [← List.map_tail]
      exact strtoulLoop_digits
        (fun d hd => hdigits d (List.mem_of_mem_tail hd)) 0 (by decide)
    have hvalue : hexValue 0 digits.tail = hexValue 0 digits := by
      cases digits with
      | nil => rfl
      | cons d rest =>
          have hd : d = 0 := by
            have hall : ∀ e ∈ List.range 16, digitChar e = ch '0' → e = 0 := by
              decide
            exact hall d (List.mem_range.mpr (hdigits d (by simp))) hzero
          simp [hexValue, hd]
    simp [hnotx, htail, hvalue]
  · simpa using strtoulLoop_digits hdigits 0 (by decide)

theorem hexValue_digits (n : ℕ) : hexValue 0 (Nat.digits 16 n).reverse = n := by
  have hfold : hexValue 0 (Nat.digits 16 n).reverse =
      Nat.ofDigits 16 (Nat.digits 16 n) := by
    rw [Nat.ofDigits_eq_foldr, hexValue, List.foldl_reverse]
    congr 1
    funext x y
    simp only [Nat.cast_id]
    ring
  rw [hfold, Nat.ofDigits_digits]

theorem hexValue_replicate (k : ℕ) (digits : List ℕ) :
    hexValue 0 (List.replicate k 0 ++ digits) = hexValue 0 digits := by
  induction k with
  | zero => rfl
  | succ k ih =>
      rw [List.replicate_succ, List.cons_append]
      exact ih

/-- A number printed with `%08x` is read back. -/
theorem simpleStrtoul_formatHex08 {n : ℕ} (hn : n < 2 ^ 32) :
    simpleStrtoul (formatHex08 n) 16 = (n, []) := by
  have hformat : ∃ k digits, formatHex08 n =
      (List.replicate k 0 ++ digits).map digitChar ∧
        hexValue 0 digits = n ∧ ∀ d ∈ digits, d < 16 := by
    by_cases hzero : n = 0
    · refine ⟨7, [0], ?_, by simp [hexValue, hzero], by simp⟩
      subst hzero
      decide
    · refine ⟨8 - ((Nat.digits 16 n).map digitChar).length,
        (Nat.digits 16 n).reverse, ?_, hexValue_digits n, ?_⟩
      · have hdigit : digitChar 0 = ch '0' := by decide
        simp [formatHex08, number, hzero, hdigit]
      · intro d hd
        exact Nat.digits_lt_base (by decide) (List.mem_reverse.mp hd)
  obtain ⟨k, digits, hformat, hvalue, hdigits⟩ := hformat
  have hall : ∀ d ∈ List.replicate k 0 ++ digits, d < 16 := by
    intro d hd
    rcases List.mem_append.mp hd with hd | hd
    · rw [List.eq_of_mem_replicate hd]
      decide
    · exact hdigits d hd
  rw [hformat, simpleStrtoul_digits hall, hexValue_replicate, hvalue,
    Nat.mod_eq_of_lt hn]

@[simp] theorem cstr_nil : cstr [] = [] := rfl

theorem cstr_of_notMem {s : List UInt8} (h : (0 : UInt8) ∉ s) :
    cstr s = s := by
  rw [cstr, List.takeWhile_eq_self_iff]
  intro c hc
  have : c ≠ 0 := fun h0 => h (h0 ▸ hc)
  simpa using this

theorem cstr_append_zeros {s : List UInt8} (hs : (0 : UInt8) ∉ s) (n : ℕ) :
    cstr (s ++ List.replicate n 0) = s := by
  unfold cstr
  rw [List.takeWhile_append_of_pos]
  · cases n with
    | zero => rw [List.replicate_zero, List.takeWhile_nil, List.append_nil]
    | succ n =>
        rw [List.replicate_succ, List.takeWhile_cons]
        simp
  · intro c hc
    simp only [ne_eq, decide_eq_true_eq]
    rintro rfl
    exact hs hc

theorem cstr_append_nul (s buf : List UInt8) : cstr (s ++ 0 :: buf) = cstr s := by
  induction s with
  | nil => simp [cstr]
  | cons c s ih =>
      unfold cstr at ih ⊢
      rw [List.cons_append, List.takeWhile_cons, List.takeWhile_cons, ih]

theorem zero_notMem_cstr (s : List UInt8) : (0 : UInt8) ∉ cstr s := by
  intro h
  simpa using List.mem_takeWhile_imp h

/-! ## Comparing strings -/

/-- `strncmp`. -/
def strncmp : List UInt8 → List UInt8 → ℕ → ℤ
  | _, _, 0 => 0
  | cs, ct, count + 1 =>
      let res := (peek cs - peek ct).toInt8.toInt
      if res ≠ 0 ∨ peek cs = 0 then res else strncmp cs.tail ct.tail count

attribute [grind =] strncmp

theorem charDifference_eq_zero {a b : UInt8} :
    (a - b).toInt8.toInt = 0 ↔ a = b := by
  constructor
  · intro h
    have hzero : (a - b).toInt8 = 0 := Int8.toInt_inj.mp h
    have hsub : a - b = 0 := congrArg Int8.toUInt8 hzero
    grind
  · rintro rfl
    simp

theorem strncmp_cons (a b : UInt8) (cs ct : List UInt8) (count : ℕ) :
    strncmp (a :: cs) (b :: ct) (count + 1) =
      if (a - b).toInt8.toInt ≠ 0 ∨ a = 0 then (a - b).toInt8.toInt
      else strncmp cs ct count := rfl

theorem strncmp_cons_nil (a : UInt8) (cs : List UInt8) (count : ℕ) :
    strncmp (a :: cs) [] (count + 1) =
      if (a - 0).toInt8.toInt ≠ 0 ∨ a = 0 then (a - 0).toInt8.toInt
      else strncmp cs [] count := rfl

/-- A comparison of `count` characters says whether these start the other string. -/
theorem strncmp_eq_zero_iff {cs ct : List UInt8} {count : ℕ}
    (hcs : (0 : UInt8) ∉ cs) (hcount : count ≤ cs.length) :
    strncmp cs ct count = 0 ↔ cs.take count <+: ct := by
  induction count generalizing cs ct with
  | zero => simp [strncmp]
  | succ count ih =>
      cases cs with
      | nil => cases hcount
      | cons a cs =>
          rw [List.mem_cons, not_or] at hcs
          have hne : a ≠ 0 := Ne.symm hcs.1
          cases ct with
          | nil =>
              have hdiff : (a - 0).toInt8.toInt ≠ 0 :=
                fun h => hne (charDifference_eq_zero.mp h)
              refine iff_of_false ?_ (by simp)
              rw [strncmp_cons_nil, if_pos (Or.inl hdiff)]
              exact hdiff
          | cons b ct =>
              rw [strncmp_cons, List.take_succ_cons]
              by_cases hab : a = b
              · have hzero := charDifference_eq_zero.mpr hab
                rw [if_neg (not_or.mpr ⟨not_not.mpr hzero, hne⟩),
                  ih hcs.2 (Nat.le_of_succ_le_succ hcount), hab,
                  List.prefix_cons_inj]
              · have hdiff : (a - b).toInt8.toInt ≠ 0 :=
                  fun h => hab (charDifference_eq_zero.mp h)
                rw [if_pos (Or.inl hdiff)]
                refine iff_of_false hdiff ?_
                intro hp
                exact hab (List.cons_prefix_cons.mp hp).1

/-- A comparison over the length of the second string says whether it starts the
first. -/
theorem strncmp_length_eq_zero_iff {cs ct : List UInt8} (hct : (0 : UInt8) ∉ ct) :
    strncmp cs ct ct.length = 0 ↔ ct <+: cs := by
  induction ct generalizing cs with
  | nil => simp [strncmp]
  | cons b ct ih =>
      rw [List.mem_cons, not_or] at hct
      have hb : b ≠ 0 := Ne.symm hct.1
      cases cs with
      | nil =>
          have hdiff : (0 - b).toInt8.toInt ≠ 0 :=
            fun h => hb (charDifference_eq_zero.mp h).symm
          refine iff_of_false ?_ (by simp)
          change (if (0 - b).toInt8.toInt ≠ 0 ∨ (0 : UInt8) = 0
            then (0 - b).toInt8.toInt else strncmp [] ct ct.length) ≠ 0
          rw [if_pos (Or.inl hdiff)]
          exact hdiff
      | cons a cs =>
          rw [List.length_cons, strncmp_cons]
          by_cases hab : a = b
          · have hzero := charDifference_eq_zero.mpr hab
            have ha : a ≠ 0 := hab ▸ hb
            rw [if_neg (not_or.mpr ⟨not_not.mpr hzero, ha⟩), ih hct.2, hab,
              List.prefix_cons_inj]
          · have hdiff : (a - b).toInt8.toInt ≠ 0 :=
              fun h => hab (charDifference_eq_zero.mp h)
            rw [if_pos (Or.inl hdiff)]
            refine iff_of_false hdiff ?_
            intro hp
            exact hab (List.cons_prefix_cons.mp hp).1.symm

example : simpleStrtoul (text "0x1f") 16 = (31, []) := by decide

example : simpleStrtoul (text "00a0:") 16 = (160, [ch ':']) := by decide

example : formatHex08 4096 = text "00001000" := by decide

end TateFirmware.LibGeneric
