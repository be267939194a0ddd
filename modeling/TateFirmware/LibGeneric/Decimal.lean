import TateFirmware.LibGeneric.CString

/-!
# Reading back printed numbers

A number printed with `%lu` is read back by `simple_strtoul` with no base given,
whatever follows it, as long as that does not start with a decimal digit.  A
number printed with `0x%x` is read back with base 16.
-/

namespace TateFirmware.LibGeneric

/-- The number of a list of digits, the most significant one first. -/
def digitsValue (base result : ℕ) (digits : List ℕ) : ℕ :=
  digits.foldl (fun r d => r * base + d) result

theorem digitsValue_mod (base result : ℕ) (digits : List ℕ) :
    digitsValue base (result % 2 ^ 32) digits % 2 ^ 32 =
      digitsValue base result digits % 2 ^ 32 := by
  unfold digitsValue
  induction digits generalizing result with
  | nil => simp
  | cons d digits ih =>
      rw [List.foldl_cons, List.foldl_cons, ← ih, ← ih (result * base + d)]
      congr 2
      rw [Nat.add_mod, Nat.mul_mod, Nat.mod_mod, ← Nat.mul_mod, ← Nat.add_mod]

/-- A byte at which a number of the base ends. -/
def EndsNumber (base : ℕ) (rest : List UInt8) : Prop :=
  ∀ c ∈ rest.head?, ¬ (isxdigit c && digitValue c < base) = true

theorem strtoulLoop_of_endsNumber {base result : ℕ} {rest : List UInt8}
    (h : EndsNumber base rest) :
    strtoulLoop base result rest = (result, rest) := by
  cases rest with
  | nil => rfl
  | cons c rest => rw [strtoulLoop, if_neg (h c rfl)]

theorem strtoulLoop_digits_append {base : ℕ} (hbase : base ≤ 16)
    {digits : List ℕ} (hdigits : ∀ d ∈ digits, d < base) (result : ℕ)
    (hresult : result < 2 ^ 32) {rest : List UInt8}
    (hrest : EndsNumber base rest) :
    strtoulLoop base result (digits.map digitChar ++ rest) =
      (digitsValue base result digits % 2 ^ 32, rest) := by
  induction digits generalizing result with
  | nil =>
      rw [List.map_nil, List.nil_append, strtoulLoop_of_endsNumber hrest,
        digitsValue, List.foldl_nil, Nat.mod_eq_of_lt hresult]
  | cons d digits ih =>
      rw [List.forall_mem_cons] at hdigits
      obtain ⟨hx, hvalue, -⟩ :=
        digitValue_digitChar (lt_of_lt_of_le hdigits.1 hbase)
      rw [List.map_cons, List.cons_append, strtoulLoop, hx, hvalue]
      simp only [Bool.true_and, decide_eq_true_eq, if_pos hdigits.1]
      rw [ih hdigits.2 _ (Nat.mod_lt _ (by decide)), digitsValue_mod]
      rfl

theorem digitsValue_digits {base : ℕ} (n : ℕ) :
    digitsValue base 0 (Nat.digits base n).reverse = n := by
  have hfold : digitsValue base 0 (Nat.digits base n).reverse =
      Nat.ofDigits base (Nat.digits base n) := by
    rw [Nat.ofDigits_eq_foldr, digitsValue, List.foldl_reverse]
    congr 1
    funext x y
    simp only [Nat.cast_id]
    ring
  rw [hfold, Nat.ofDigits_digits]

/-- The text of a number that is not zero: its digits, the first of which is
not zero. -/
theorem number_eq {base n : ℕ} (hbase : 2 ≤ base) (hn : n ≠ 0) :
    ∃ d digits, number n base 0 ⟨false, false⟩ = (d :: digits).map digitChar ∧
      d ≠ 0 ∧ (∀ e ∈ d :: digits, e < base) ∧
      digitsValue base 0 (d :: digits) = n := by
  have hne : Nat.digits base n ≠ [] := Nat.digits_ne_nil_iff_ne_zero.mpr hn
  have hlast := Nat.getLast_digit_ne_zero base hn
  have hreverse : (Nat.digits base n).reverse =
      (Nat.digits base n).getLast hne ::
        (Nat.digits base n).dropLast.reverse := by
    rw [← List.reverse_concat, List.dropLast_append_getLast]
  refine ⟨(Nat.digits base n).getLast hne,
    (Nat.digits base n).dropLast.reverse, ?_, hlast, ?_, ?_⟩
  · rw [← hreverse]
    simp [number, hn]
  · rw [← hreverse]
    intro e he
    exact Nat.digits_lt_base hbase (List.mem_reverse.mp he)
  · rw [← hreverse]
    exact digitsValue_digits n

theorem formatUnsigned_eq {n : ℕ} (hn : n ≠ 0) :
    ∃ d digits, formatUnsigned n = (d :: digits).map digitChar ∧ d ≠ 0 ∧
      (∀ e ∈ d :: digits, e < 10) ∧ digitsValue 10 0 (d :: digits) = n :=
  number_eq (by decide) hn

/-- A number that is not negative is printed alike with `%d` and `%lu`. -/
theorem formatInt_of_lt {n : ℕ} (hn : n < 2 ^ 31) :
    formatInt n = formatUnsigned n := by
  have hpos : ¬ 2147483648 ≤ n := by omega
  simp [formatInt, formatUnsigned, number, hpos]

/-- A number that is printed in a base is read back in this base, from in front
of text that does not go on with digits. -/
theorem simpleStrtoul_number {base n : ℕ} (hbase : 2 ≤ base) (hle : base ≤ 16)
    (hn : n < 2 ^ 32) {rest : List UInt8} (hrest : EndsNumber base rest)
    (hx : peek rest ≠ ch 'x') :
    simpleStrtoul (number n base 0 ⟨false, false⟩ ++ rest) base = (n, rest) := by
  have hbase0 : base ≠ 0 := by omega
  by_cases hzero : n = 0
  · subst hzero
    have hno : ¬ ((peek rest = ch 'x' && isxdigit (peek rest.tail)) = true) := by
      simp [hx]
    calc simpleStrtoul (ch '0' :: rest) base
        = strtoulLoop (if base = 0 then 8 else base) 0 rest :=
          (if_pos rfl).trans (if_neg hno)
      _ = (0, rest) := by
          rw [if_neg hbase0, strtoulLoop_of_endsNumber hrest]
  · obtain ⟨d, digits, hformat, hd, hdigits, hvalue⟩ := number_eq hbase hzero
    have hpeek : peek (number n base 0 ⟨false, false⟩ ++ rest) ≠ ch '0' := by
      rw [hformat]
      have hall : ∀ e ∈ List.range 16, e ≠ 0 → digitChar e ≠ ch '0' := by decide
      exact hall d (List.mem_range.mpr ((hdigits d (by simp)).trans_le hle)) hd
    unfold simpleStrtoul
    rw [if_neg hpeek, if_neg hbase0, hformat,
      strtoulLoop_digits_append hle hdigits 0 (by decide) hrest, hvalue,
      Nat.mod_eq_of_lt hn]

/-- A number printed with `%lu` is read back from in front of other text. -/
theorem simpleStrtoul_formatUnsigned {n : ℕ} (hzero : n ≠ 0)
    (hn : n < 2 ^ 32) {rest : List UInt8} (hrest : EndsNumber 10 rest) :
    simpleStrtoul (formatUnsigned n ++ rest) 0 = (n, rest) := by
  obtain ⟨d, digits, hformat, hd, hdigits, hvalue⟩ := formatUnsigned_eq hzero
  have hdlt : d < 10 := hdigits d (by simp)
  have hpeek : peek (formatUnsigned n ++ rest) ≠ ch '0' := by
    rw [hformat]
    show digitChar d ≠ ch '0'
    have hall : ∀ e ∈ List.range 10, e ≠ 0 → digitChar e ≠ ch '0' := by decide
    exact hall d (List.mem_range.mpr hdlt) hd
  unfold simpleStrtoul
  rw [if_neg hpeek, if_pos rfl, hformat,
    strtoulLoop_digits_append (by decide) hdigits 0 (by decide) hrest, hvalue,
    Nat.mod_eq_of_lt hn]

/-- A number printed with `0x%x` is read back. -/
theorem simpleStrtoul_formatHex {n : ℕ} (hn : n < 2 ^ 32) :
    simpleStrtoul (text "0x" ++ formatHex n) 16 = (n, []) := by
  obtain ⟨d, digits, hformat, hdigits, hvalue⟩ : ∃ d digits,
      formatHex n = (d :: digits).map digitChar ∧
      (∀ e ∈ d :: digits, e < 16) ∧ digitsValue 16 0 (d :: digits) = n := by
    by_cases hzero : n = 0
    · subst hzero
      exact ⟨0, [], by decide, by decide, by decide⟩
    · obtain ⟨d, digits, hformat, -, hdigits, hvalue⟩ :=
        number_eq (by decide : 2 ≤ 16) hzero
      exact ⟨d, digits, hformat, hdigits, hvalue⟩
  have hx : isxdigit (digitChar d) = true :=
    (digitValue_digitChar (hdigits d (by simp))).1
  have hends : EndsNumber 16 [] := fun c hc => by cases hc
  have hloop :=
    strtoulLoop_digits_append (le_refl 16) hdigits 0 (by decide) hends
  rw [List.append_nil, hvalue, Nat.mod_eq_of_lt hn, List.map_cons] at hloop
  rw [hformat, List.map_cons]
  simpa [simpleStrtoul, text, peek, hx] using hloop

/-!
## Decimal numbers in a string

`strtol(nptr, NULL, 10)` skips white space, takes a sign and reads digits.  A
string that is cut off loses digits of its number from the right.
-/

/-- White space of the C locale. -/
def isspace (c : UInt8) : Bool := c = ch ' ' || (9 ≤ c && c ≤ 13)

/-- The value of the digits at the start of a string, behind digits of value
`acc`. -/
def decimalDigits : ℕ → List UInt8 → ℕ
  | acc, [] => acc
  | acc, c :: cs =>
      if isdigit c then decimalDigits (acc * 10 + (c.toNat - 48)) cs else acc

attribute [grind =] decimalDigits

/-- The decimal number at the start of a string. -/
def decimalValue : List UInt8 → ℤ
  | [] => 0
  | c :: cs =>
      if isspace c then decimalValue cs
      else if c = ch '-' then -(decimalDigits 0 cs : ℤ)
      else if c = ch '+' then decimalDigits 0 cs
      else decimalDigits 0 (c :: cs)

attribute [grind =] decimalValue

/-- `strtol(nptr, NULL, 10)`, where a `long` has 32 bits. -/
def strtolTen (nptr : List UInt8) : ℤ :=
  max (-(2 ^ 31)) (min (2 ^ 31 - 1) (decimalValue nptr))

theorem isdigit_toNat {c : UInt8} (h : isdigit c = true) :
    c.toNat - 48 < 10 := by
  have hhi : c ≤ ch '9' := by
    unfold isdigit at h
    simp only [Bool.and_eq_true, decide_eq_true_eq] at h
    exact h.2
  have hle : c.toNat ≤ 57 := UInt8.le_iff_toNat_le.mp hhi
  omega

/-- Cutting all digits off leaves what stood in front of them. -/
theorem decimalDigits_div (acc : ℕ) (s : List UInt8) :
    ∃ k, decimalDigits acc s / 10 ^ k = acc := by
  induction s generalizing acc with
  | nil => exact ⟨0, by simp [decimalDigits]⟩
  | cons c cs ih =>
      rw [decimalDigits]
      split
      · rename_i hc
        have hdigit := isdigit_toNat hc
        obtain ⟨k, hk⟩ := ih (acc * 10 + (c.toNat - 48))
        refine ⟨k + 1, ?_⟩
        rw [pow_succ, ← Nat.div_div_eq_div_mul, hk]
        omega
      · exact ⟨0, by simp⟩

theorem decimalDigits_take (acc : ℕ) (s : List UInt8) (m : ℕ) :
    ∃ k, decimalDigits acc (s.take m) = decimalDigits acc s / 10 ^ k := by
  induction s generalizing acc m with
  | nil => exact ⟨0, by simp⟩
  | cons c cs ih =>
      cases m with
      | zero =>
          obtain ⟨k, hk⟩ := decimalDigits_div acc (c :: cs)
          exact ⟨k, by rw [hk, List.take_zero, decimalDigits]⟩
      | succ m =>
          rw [List.take_succ_cons, decimalDigits, decimalDigits]
          split
          · exact ih _ m
          · exact ⟨0, by simp⟩

/-- The number at the start of a string that is cut off is the number without
some of its last digits. -/
theorem decimalValue_take {s : List UInt8} {v : ℕ} (hv : decimalValue s = v)
    (m : ℕ) : ∃ k, decimalValue (s.take m) = (v / 10 ^ k : ℕ) := by
  induction s generalizing m with
  | nil =>
      have hzero : v = 0 := by
        rw [decimalValue] at hv
        omega
      exact ⟨0, by simp [decimalValue, hzero]⟩
  | cons c cs ih =>
      cases m with
      | zero =>
          refine ⟨v, ?_⟩
          rw [List.take_zero, decimalValue,
            Nat.div_eq_of_lt (Nat.lt_pow_self (by decide))]
          rfl
      | succ m =>
          rw [decimalValue] at hv
          rw [List.take_succ_cons, decimalValue]
          split
          · rename_i hspace
            rw [if_pos hspace] at hv
            exact ih hv m
          · rename_i hspace
            rw [if_neg hspace] at hv
            split
            · rename_i hminus
              rw [if_pos hminus] at hv
              obtain ⟨k, hk⟩ := decimalDigits_take 0 cs m
              have hzero : decimalDigits 0 cs = 0 := by omega
              refine ⟨0, ?_⟩
              rw [hk, hzero, Nat.zero_div]
              omega
            · rename_i hminus
              rw [if_neg hminus] at hv
              split
              · rename_i hplus
                rw [if_pos hplus] at hv
                obtain ⟨k, hk⟩ := decimalDigits_take 0 cs m
                refine ⟨k, ?_⟩
                rw [hk, show decimalDigits 0 cs = v by omega]
              · rename_i hplus
                rw [if_neg hplus] at hv
                obtain ⟨k, hk⟩ := decimalDigits_take 0 (c :: cs) (m + 1)
                refine ⟨k, ?_⟩
                rw [List.take_succ_cons] at hk
                rw [hk, show decimalDigits 0 (c :: cs) = v by omega]

theorem decimalDigits_lt {acc j : ℕ} (hacc : acc < 10 ^ j) (s : List UInt8) :
    decimalDigits acc s < 10 ^ (j + s.length) := by
  induction s generalizing acc j with
  | nil => exact hacc
  | cons c cs ih =>
      rw [decimalDigits]
      split
      · rename_i hc
        have hdigit := isdigit_toNat hc
        have hnext : acc * 10 + (c.toNat - 48) < 10 ^ (j + 1) := by
          rw [pow_succ]
          omega
        have hlt := ih hnext
        rwa [List.length_cons, show j + (cs.length + 1) =
          j + 1 + cs.length by omega]
      · exact hacc.trans_le (Nat.pow_le_pow_right (by decide) (by omega))

/-- A string of `n` characters has a number below `10 ^ n`. -/
theorem decimalValue_lt (s : List UInt8) :
    decimalValue s < (10 ^ s.length : ℕ) := by
  induction s with
  | nil => simp [decimalValue]
  | cons c cs ih =>
      have hle : 10 ^ cs.length ≤ 10 ^ (c :: cs).length :=
        Nat.pow_le_pow_right (by decide) (by simp)
      have hcs : decimalDigits 0 cs < 10 ^ (0 + cs.length) :=
        decimalDigits_lt (by simp) cs
      have hall : decimalDigits 0 (c :: cs) < 10 ^ (0 + (c :: cs).length) :=
        decimalDigits_lt (by simp) (c :: cs)
      rw [Nat.zero_add] at hcs hall
      rw [decimalValue]
      split
      · omega
      · split
        · omega
        · split <;> omega

/-!
## Numerals

A numeral is a text of decimal digits.  With no base given `simple_strtoul`
takes a numeral that starts with `0` for an octal number.
-/

/-- A decimal numeral, with leading zeros or without. -/
structure Numeral (s : List UInt8) : Prop where
  ne_nil : s ≠ []
  digits : ∀ c ∈ s, isdigit c = true

theorem digitValue_of_isdigit {c : UInt8} (h : isdigit c = true) :
    isxdigit c = true ∧ digitValue c = c.toNat - 48 := by
  refine ⟨?_, if_pos h⟩
  rw [isxdigit, h, Bool.true_or, Bool.true_or]

theorem le_decimalDigits (acc : ℕ) (s : List UInt8) :
    acc ≤ decimalDigits acc s := by
  induction s generalizing acc with
  | nil => exact le_refl acc
  | cons c cs ih =>
      rw [decimalDigits]
      split
      · have := ih (acc * 10 + (c.toNat - 48))
        omega
      · exact le_refl acc

/-- In base 10 the digits of a numeral have their value. -/
theorem strtoulLoop_numeral {s rest : List UInt8}
    (hs : ∀ c ∈ s, isdigit c = true) (hrest : EndsNumber 10 rest) {acc : ℕ}
    (hlt : decimalDigits acc s < 2 ^ 32) :
    strtoulLoop 10 acc (s ++ rest) = (decimalDigits acc s, rest) := by
  induction s generalizing acc with
  | nil => exact strtoulLoop_of_endsNumber hrest
  | cons c cs ih =>
      rw [List.forall_mem_cons] at hs
      obtain ⟨hx, hvalue⟩ := digitValue_of_isdigit hs.1
      have hdigit := isdigit_toNat hs.1
      rw [decimalDigits, if_pos hs.1] at hlt ⊢
      have hle := le_decimalDigits (acc * 10 + (c.toNat - 48)) cs
      rw [List.cons_append, strtoulLoop, hx, hvalue,
        if_pos (by simpa using hdigit), Nat.mod_eq_of_lt (by omega)]
      exact ih hs.2 hlt

/-- In base 8 they have it as long as it is below 8; otherwise less is read. -/
theorem strtoulLoop_octal {s rest : List UInt8}
    (hs : ∀ c ∈ s, isdigit c = true) (hrest : EndsNumber 10 rest)
    {result acc : ℕ} (hlt : decimalDigits acc s < 2 ^ 32)
    (hacc : (result = acc ∧ acc < 8) ∨ (result < acc ∧ 8 ≤ acc)) :
    (decimalDigits acc s < 8 ∧
        strtoulLoop 8 result (s ++ rest) = (decimalDigits acc s, rest)) ∨
      (8 ≤ decimalDigits acc s ∧
        (strtoulLoop 8 result (s ++ rest)).1 < decimalDigits acc s ∧
        ((strtoulLoop 8 result (s ++ rest)).2 = rest ∨
          isdigit (peek (strtoulLoop 8 result (s ++ rest)).2) = true)) := by
  induction s generalizing result acc with
  | nil =>
      have hends : EndsNumber 8 rest := by
        intro c hc hdigit
        refine hrest c hc ?_
        simp only [Bool.and_eq_true, decide_eq_true_eq] at hdigit ⊢
        exact ⟨hdigit.1, by omega⟩
      rw [List.nil_append, strtoulLoop_of_endsNumber hends]
      rcases hacc with ⟨rfl, hsmall⟩ | hless
      · exact Or.inl ⟨hsmall, rfl⟩
      · exact Or.inr ⟨hless.2, hless.1, Or.inl rfl⟩
  | cons c cs ih =>
      rw [List.forall_mem_cons] at hs
      obtain ⟨hx, hvalue⟩ := digitValue_of_isdigit hs.1
      have hdigit := isdigit_toNat hs.1
      rw [decimalDigits, if_pos hs.1] at hlt ⊢
      have hle := le_decimalDigits (acc * 10 + (c.toNat - 48)) cs
      rw [List.cons_append, strtoulLoop, hx, hvalue]
      by_cases hoctal : c.toNat - 48 < 8
      · rw [if_pos (by simpa using hoctal), Nat.mod_eq_of_lt (by omega)]
        exact ih hs.2 hlt (by omega)
      · -- an `8` or a `9` ends the octal number
        rw [if_neg (by simpa using hoctal)]
        exact Or.inr ⟨by omega, by dsimp only; omega, Or.inr hs.1⟩

/-- A numeral in front of text that does not go on with digits, read with no
base given. -/
theorem simpleStrtoul_numeral {s rest : List UInt8} (hs : Numeral s)
    (hrest : EndsNumber 10 rest) (hx : peek rest ≠ ch 'x')
    (hlt : decimalDigits 0 s < 2 ^ 32) :
    ((peek s ≠ ch '0' ∨ decimalDigits 0 s < 8) ∧
        simpleStrtoul (s ++ rest) 0 = (decimalDigits 0 s, rest)) ∨
      (¬ (peek s ≠ ch '0' ∨ decimalDigits 0 s < 8) ∧
        (simpleStrtoul (s ++ rest) 0).1 < decimalDigits 0 s ∧
        ((simpleStrtoul (s ++ rest) 0).2 = rest ∨
          isdigit (peek (simpleStrtoul (s ++ rest) 0).2) = true)) := by
  obtain ⟨c, cs, rfl⟩ := List.exists_cons_of_ne_nil hs.ne_nil
  have hdigits := hs.digits
  by_cases hzero : c = ch '0'
  · subst hzero
    rw [List.forall_mem_cons] at hdigits
    have hvalue : decimalDigits 0 (ch '0' :: cs) = decimalDigits 0 cs := rfl
    have hnotx : peek (cs ++ rest) ≠ ch 'x' := by
      cases cs with
      | nil => exact hx
      | cons e es =>
          intro he
          have := hdigits.2 e List.mem_cons_self
          rw [show e = ch 'x' from he] at this
          exact absurd this (by decide)
    have hread : simpleStrtoul (ch '0' :: cs ++ rest) 0 =
        strtoulLoop 8 0 (cs ++ rest) := by
      have hno : ¬ ((peek (cs ++ rest) = ch 'x' &&
          isxdigit (peek (cs ++ rest).tail)) = true) := by
        simp [hnotx]
      exact (if_pos rfl).trans (if_neg hno)
    rw [hvalue] at hlt ⊢
    rw [hread]
    rcases strtoulLoop_octal hdigits.2 hrest hlt (Or.inl ⟨rfl, by decide⟩) with
      ⟨hsmall, heq⟩ | ⟨hlarge, hread⟩
    · exact Or.inl ⟨Or.inr hsmall, heq⟩
    · refine Or.inr ⟨?_, hread⟩
      rintro (h | h)
      · exact h rfl
      · omega
  · have hread : simpleStrtoul (c :: cs ++ rest) 0 =
        strtoulLoop 10 0 (c :: cs ++ rest) := if_neg hzero
    rw [hread]
    exact Or.inl ⟨Or.inl hzero, strtoulLoop_numeral hdigits hrest hlt⟩

/-! ## Numbers without leading zeros -/

theorem digitChar_decimal : ∀ d < 10, isdigit (digitChar d) = true ∧
    (digitChar d).toNat - 48 = d ∧ isspace (digitChar d) = false ∧
    digitChar d ≠ ch '-' ∧ digitChar d ≠ ch '+' := by decide

theorem decimalDigits_map {digits : List ℕ} (hdigits : ∀ d ∈ digits, d < 10)
    (acc : ℕ) :
    decimalDigits acc (digits.map digitChar) = digitsValue 10 acc digits := by
  induction digits generalizing acc with
  | nil => rfl
  | cons d digits ih =>
      rw [List.forall_mem_cons] at hdigits
      obtain ⟨hisdigit, hvalue, -⟩ := digitChar_decimal d hdigits.1
      rw [List.map_cons, decimalDigits, if_pos hisdigit, hvalue,
        ih hdigits.2]
      rfl

theorem decimalValue_formatUnsigned {n : ℕ} (hn : n ≠ 0) :
    decimalValue (formatUnsigned n) = n := by
  obtain ⟨d, digits, hformat, -, hdigits, hvalue⟩ := formatUnsigned_eq hn
  obtain ⟨-, -, hspace, hminus, hplus⟩ :=
    digitChar_decimal d (hdigits d List.mem_cons_self)
  rw [hformat, List.map_cons, decimalValue, if_neg (by simp [hspace]),
    if_neg hminus, if_neg hplus, ← List.map_cons, decimalDigits_map hdigits,
    hvalue]

theorem formatUnsigned_length_le {n k : ℕ} (hzero : n ≠ 0) (hn : n < 10 ^ k) :
    (formatUnsigned n).length ≤ k := by
  have hlength : (formatUnsigned n).length = (Nat.digits 10 n).length := by
    simp [formatUnsigned, number, hzero]
  rw [hlength]
  exact (Nat.digits_length_le_iff (by decide) n).mpr hn

end TateFirmware.LibGeneric
