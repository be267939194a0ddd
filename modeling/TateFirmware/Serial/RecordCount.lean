import TateFirmware.Serial.LoadSerial

/-!
# The count of a record

The count byte of a record counts the address and the checksum, which
`srec_decode` subtracts.  It does not check that the count byte is large enough:
a data record that is too short for its own address, with the checksum behind the
address, is accepted with a negative count, and `load_serial` copies that many
bytes, to memory or to flash.
-/

namespace TateFirmware.Serial

open LibGeneric Support

/-- `SREC_DATA2`, `SREC_DATA3` and `SREC_DATA4`. -/
def SrecType.IsData (type : SrecType) : Prop :=
  type = .data2 ∨ type = .data3 ∨ type = .data4

instance (type : SrecType) : Decidable type.IsData :=
  inferInstanceAs (Decidable (_ ∨ _ ∨ _))

/-- The count byte of a record. -/
def declaredCount (input : List UInt8) : Option ℕ :=
  hex2Bin (skipToRecord input).tail

/-- A data record that is accepted has between 0 and 252 data bytes, as many as its
count says, and no more than its count byte says are copied. -/
def CountsData (input : List UInt8) : Prop :=
  ∀ srec, srecDecode input = .ok srec → srec.type.IsData →
    0 ≤ srec.count ∧ srec.count ≤ 252 ∧ srec.data.length = srec.count ∧
      ∀ n, declaredCount input = some n → srec.copyLength ≤ n

/-- A data record whose count byte is too small for its address and checksum, with
the checksum right behind the address. -/
def ShortRecord (input : List UInt8) : Prop :=
  ∃ v fields kind n address rest c, skipToRecord input = v :: fields ∧
    hex2Bin fields = some n ∧ srecKind v = some kind ∧ kind.1.IsData ∧
    n < kind.2 + 1 ∧ readBytes kind.2 (fields.drop 2) = some (address, rest) ∧
    hex2Bin rest = some c ∧
    UInt8.ofNat c = ~~~(UInt8.ofNat n + byteSum address)

/-! ## The readers -/

theorem hex1Bin_lt {c : UInt8} {i : ℕ} (h : hex1Bin c = some i) : i < 16 := by
  unfold hex1Bin at h
  split at h
  · rename_i hc
    have hle := UInt8.le_iff_toNat_le.mp hc.2
    rw [← Option.some.inj h]
    have hlo : (ch '0').toNat = 48 := by decide
    have hhi : (ch '9').toNat = 57 := by decide
    omega
  · split at h
    · rename_i hc
      have hle := UInt8.le_iff_toNat_le.mp hc.2
      rw [← Option.some.inj h]
      have hlo : (ch 'a').toNat = 97 := by decide
      have hhi : (ch 'f').toNat = 102 := by decide
      omega
    · split at h
      · rename_i hc
        have hle := UInt8.le_iff_toNat_le.mp hc.2
        rw [← Option.some.inj h]
        have hlo : (ch 'A').toNat = 65 := by decide
        have hhi : (ch 'F').toNat = 70 := by decide
        omega
      · cases h

theorem hex2Bin_lt {s : List UInt8} {v : ℕ} (h : hex2Bin s = some v) : v < 256 := by
  unfold hex2Bin at h
  split at h
  · cases h
  · rename_i i hi
    split at h
    · cases h
    · rename_i j hj
      have hhi := hex1Bin_lt hi
      have hlo := hex1Bin_lt hj
      rw [← Option.some.inj h]
      omega

theorem readBytes_length {n : ℕ} {input bytes rest : List UInt8}
    (h : readBytes n input = some (bytes, rest)) : bytes.length = n := by
  induction n generalizing input bytes rest with
  | zero =>
      obtain ⟨rfl, -⟩ := Prod.mk.inj (Option.some.inj h)
      rfl
  | succ n ih =>
      rw [readBytes] at h
      split at h
      · cases h
      · split at h
        · cases h
        · rename_i bytes' rest' hrest
          obtain ⟨rfl, -⟩ := Prod.mk.inj (Option.some.inj h)
          rw [List.length_cons, ih hrest]

/-- The address of a record has two bytes or more. -/
theorem address_length {v : UInt8} {kind : SrecType × ℕ}
    (h : srecKind v = some kind) : 2 ≤ kind.2 := by
  unfold srecKind at h
  split_ifs at h <;> rw [← Option.some.inj h] <;> decide

/-! ## What is accepted -/

/-- The fields of an accepted data record. -/
theorem decodeFields_eq_ok_iff {kind : SrecType × ℕ} (hdata : kind.1.IsData) {n : ℕ}
    {input : List UInt8} {srec : Srec} :
    decodeFields kind n input = .ok srec ↔
      ∃ address rest data rest' c, readBytes kind.2 input = some (address, rest) ∧
        readBytes (n - (kind.2 + 1 : ℤ)).toNat rest = some (data, rest') ∧
        hex2Bin rest' = some c ∧
        UInt8.ofNat c = ~~~(UInt8.ofNat n + byteSum address + byteSum data) ∧
        srec = ⟨kind.1, n - (kind.2 + 1 : ℤ), addressOf address, data⟩ := by
  have hcount : kind.1 ≠ .count := by
    rintro heq
    rw [heq] at hdata
    revert hdata
    decide
  rw [decodeFields, if_neg hcount]
  dsimp only
  constructor
  · intro h
    split at h
    · cases h
    · rename_i address rest haddress
      split at h
      · cases h
      · rename_i data rest' hdatabytes
        split at h
        · cases h
        · rename_i c hc
          split at h
          · cases h
          · rename_i hchk
            exact ⟨address, rest, data, rest', c, haddress, hdatabytes, hc,
              not_not.mp hchk, (Except.ok.inj h).symm⟩
  · rintro ⟨address, rest, data, rest', c, haddress, hdatabytes, hc, hchk, rfl⟩
    rw [haddress]
    dsimp only
    rw [hdatabytes]
    dsimp only
    rw [hc]
    dsimp only
    rw [if_neg (not_not.mpr hchk)]

theorem decodeFields_type {kind : SrecType × ℕ} {n : ℕ} {input : List UInt8}
    {srec : Srec} (h : decodeFields kind n input = .ok srec) : srec.type = kind.1 := by
  unfold decodeFields at h
  dsimp only at h
  split at h
  · cases h
  · split at h
    · cases h
    · split at h
      · cases h
      · split at h
        · cases h
        · rw [← Except.ok.inj h]

/-- An accepted data record, from its type on. -/
theorem srecDecode_eq_ok {input : List UInt8} {srec : Srec}
    (hdata : srec.type.IsData) (h : srecDecode input = .ok srec) :
    ∃ v fields kind n, skipToRecord input = v :: fields ∧
      hex2Bin fields = some n ∧ srecKind v = some kind ∧ kind.1.IsData ∧
      decodeFields kind n (fields.drop 2) = .ok srec := by
  unfold srecDecode at h
  cases hskip : skipToRecord input with
  | nil =>
      rw [hskip] at h
      rw [← Except.ok.inj h] at hdata
      exact absurd hdata (by decide)
  | cons v fields =>
      rw [hskip] at h
      dsimp only [List.tail_cons, peek] at h
      rw [if_neg (by simp)] at h
      split at h
      · cases h
      · rename_i n hn
        split at h
        · cases h
        · rename_i kind hkind
          refine ⟨v, fields, kind, n, rfl, hn, hkind, ?_, h⟩
          rw [← decodeFields_type h]
          exact hdata

theorem srecDecode_of_fields {input fields : List UInt8} {v : UInt8} {n : ℕ}
    {kind : SrecType × ℕ} (hskip : skipToRecord input = v :: fields)
    (hn : hex2Bin fields = some n) (hkind : srecKind v = some kind) :
    srecDecode input = decodeFields kind n (fields.drop 2) := by
  unfold srecDecode
  rw [hskip]
  dsimp only [List.tail_cons, peek]
  rw [if_neg (by simp), hn]
  dsimp only
  rw [hkind]

/-! ## Short records -/

theorem byteSum_nil : byteSum [] = 0 := rfl

/-- A record that is long enough for its address. -/
theorem countsData_of_long {input : List UInt8} (hshort : ¬ ShortRecord input) :
    CountsData input := by
  intro srec hok hdata
  obtain ⟨v, fields, kind, n, hskip, hn, hkind, hkdata, hfields⟩ :=
    srecDecode_eq_ok hdata hok
  obtain ⟨address, rest, data, rest', c, haddress, hdatabytes, hc, hchk, rfl⟩ :=
    (decodeFields_eq_ok_iff hkdata).mp hfields
  have hlen := address_length hkind
  have hlt := hex2Bin_lt hn
  have hdlen := readBytes_length hdatabytes
  have hlong : kind.2 + 1 ≤ n := by
    by_contra hsmall
    have hzero : (n - (kind.2 + 1 : ℤ)).toNat = 0 := by omega
    rw [hzero, readBytes] at hdatabytes
    obtain ⟨rfl, rfl⟩ := Prod.mk.inj (Option.some.inj hdatabytes)
    apply hshort
    refine ⟨v, fields, kind, n, address, rest, c, hskip, hn, hkind, hkdata, by omega,
      haddress, hc, ?_⟩
    rw [hchk, byteSum_nil, UInt8.add_zero]
  refine ⟨by dsimp only; omega, by dsimp only; omega, by dsimp only; omega, ?_⟩
  intro m hm
  rw [declaredCount, hskip, List.tail_cons, hn] at hm
  rw [← Option.some.inj hm, Srec.copyLength]
  dsimp only
  omega

/-- A record that is too short has a negative count. -/
theorem not_countsData_of_short {input : List UInt8} (hshort : ShortRecord input) :
    ¬ CountsData input := by
  obtain ⟨v, fields, kind, n, address, rest, c, hskip, hn, hkind, hkdata, hsmall,
    haddress, hc, hchk⟩ := hshort
  have hzero : (n - (kind.2 + 1 : ℤ)).toNat = 0 := by omega
  have hok : srecDecode input =
      .ok ⟨kind.1, n - (kind.2 + 1 : ℤ), addressOf address, []⟩ := by
    rw [srecDecode_of_fields hskip hn hkind, decodeFields_eq_ok_iff hkdata]
    refine ⟨address, rest, [], rest, c, haddress, ?_, hc, ?_, rfl⟩
    · rw [hzero, readBytes]
    · rw [hchk, byteSum_nil, UInt8.add_zero]
  intro hcounts
  have hcount := (hcounts _ hok hkdata).1
  dsimp only at hcount
  omega

/-- The record `S1000000FF` has a count of `-3`. -/
theorem shortRecord_not_counted : ¬ CountsData (text "S1000000FF") := by
  have hok : srecDecode (text "S1000000FF") = .ok ⟨.data2, -3, 0, []⟩ := by
    decide
  intro hcounts
  exact absurd (hcounts _ hok (Or.inl rfl)).1 (by decide)

/-! ## The download -/

/-- The lines that `load_serial` reads from the characters that arrive. -/
inductive LineOf : List UInt8 → List UInt8 → Prop where
  | first {input line rest : List UInt8}
      (hread : readRecord [] srecMaxreclen input = .record line rest) :
      LineOf input line
  | later {input line line' rest : List UInt8}
      (hread : readRecord [] srecMaxreclen input = .record line' rest)
      (hline : LineOf rest line) : LineOf input line

/-- No negative number of bytes is copied for a record of the right count. -/
theorem LoadState.record_of_counts {input : List UInt8} {srec : Srec}
    (hcounts : CountsData input) (hok : srecDecode input = .ok srec)
    (flash : FlashDriver) (st : LoadState) (offset : ℕ) :
    st.record flash offset srec ≠ .error .crashed := by
  unfold LoadState.record
  split_ifs with hdata
  · have hcount : ¬ srec.count < 0 := not_lt.mpr (hcounts srec hok hdata).1
    unfold LoadState.storeData
    dsimp only
    split_ifs <;> simp_all
  · simp

/-- As long as no line is too short, `load_serial` does not copy a negative number of
bytes. -/
theorem loadSerial_not_crashed {flash : FlashDriver} {offset : ℕ}
    {input : List UInt8} {st : LoadState}
    (hlines : ∀ line, LineOf input line → ¬ ShortRecord line) :
    loadSerial flash offset input st ≠ .crashed := by
  induction hn : input.length using Nat.strongRecOn generalizing input st with
  | ind n ih =>
      rw [loadSerial]
      split
      · simp
      · simp
      · rename_i line rest hread
        have hcounts := countsData_of_long (hlines line (.first hread))
        split
        · simp
        · rename_i srec hok
          split
          · simp
          · have hrecord := LoadState.record_of_counts hcounts hok flash st offset
            split
            · rename_i result hresult
              exact fun hcrashed => hrecord (hcrashed ▸ hresult)
            · have hlen := readRecord_length (by decide) hread
              exact ih rest.length (hn ▸ hlen)
                (fun line' hline => hlines line' (.later hread hline)) rfl

/-- A record is counted as it should exactly if it is not too short for its own
address and checksum; where no line is, `load_serial` copies no negative number of
bytes. -/
theorem countsData_iff (record : List UInt8) (flash : FlashDriver) (offset : ℕ)
    (input : List UInt8) (st : LoadState) :
    (CountsData record ↔ ¬ ShortRecord record) ∧
      ((∀ line, LineOf input line → ¬ ShortRecord line) →
        loadSerial flash offset input st ≠ .crashed) := by
  refine ⟨⟨?_, countsData_of_long⟩, loadSerial_not_crashed⟩
  intro hcounts hshort
  exact not_countsData_of_short hshort hcounts

end TateFirmware.Serial
