import TateFirmware.LibGeneric.CString

/-!
# Motorola S-records

A record is the letter `S`, a type digit, and pairs of hexadecimal digits: a
count of the bytes that follow, an address, data, and a checksum.
`srecDecode` is the decoder of `common/s_record.c`.  Behind it stands what a
list of bytes looks like in a record, and that the decoder reads it back.
-/

namespace TateFirmware.Serial

open LibGeneric

/-! ## The decoder -/

/-- The return codes `SREC_*` of accepted records. -/
inductive SrecType where
  | start
  | data2
  | data3
  | data4
  | count
  | end4
  | end3
  | end2
  | empty
deriving DecidableEq, Repr

/-- The return codes `SREC_E_*`. -/
inductive SrecError where
  | badtype
  | nosrec
  | badchks
deriving DecidableEq, Repr

/-- What `srec_decode` returns and stores through its pointers. -/
structure Srec where
  type : SrecType
  /-- The number of data bytes, negative if the record is too short for its
  address. -/
  count : ℤ
  addr : ℕ
  data : List UInt8
deriving DecidableEq, Repr

/-- `hex1_bin`: `none` is the return value `-1`. -/
def hex1Bin (c : UInt8) : Option ℕ :=
  if ch '0' ≤ c ∧ c ≤ ch '9' then some (c.toNat - (ch '0').toNat)
  else if ch 'a' ≤ c ∧ c ≤ ch 'f' then some (c.toNat + 10 - (ch 'a').toNat)
  else if ch 'A' ≤ c ∧ c ≤ ch 'F' then some (c.toNat + 10 - (ch 'A').toNat)
  else none

/-- `hex2_bin`. -/
def hex2Bin (s : List UInt8) : Option ℕ :=
  match hex1Bin (peek s) with
  | none => none
  | some i =>
      match hex1Bin (peek s.tail) with
      | none => none
      | some j => some (i * 16 + j)

/-- What stands behind the first `S`. -/
def skipToRecord : List UInt8 → List UInt8
  | [] => []
  | c :: input => if c = ch 'S' then input else skipToRecord input

/-- The type of a record and the bytes of its address. -/
def srecKind (v : UInt8) : Option (SrecType × ℕ) :=
  if v = ch '0' then some (.start, 2)
  else if v = ch '1' then some (.data2, 2)
  else if v = ch '2' then some (.data3, 3)
  else if v = ch '3' then some (.data4, 4)
  else if v = ch '5' then some (.count, 2)
  else if v = ch '7' then some (.end4, 4)
  else if v = ch '8' then some (.end3, 3)
  else if v = ch '9' then some (.end2, 2)
  else none

/-- Read `n` bytes of a record. -/
def readBytes : ℕ → List UInt8 → Option (List UInt8 × List UInt8)
  | 0, input => some ([], input)
  | n + 1, input =>
      match hex2Bin input with
      | none => none
      | some v =>
          match readBytes n (input.drop 2) with
          | none => none
          | some (bytes, input) => some (UInt8.ofNat v :: bytes, input)

/-- The address field. -/
def addressOf (bytes : List UInt8) : ℕ :=
  bytes.foldl (fun addr b => (addr * 256 + b.toNat) % 2 ^ 32) 0

/-- The sum of some bytes in an `unsigned char`. -/
def byteSum (bytes : List UInt8) : UInt8 := bytes.foldl (· + ·) 0

/-- The fields of a record behind its count, and its checksum. -/
def decodeFields (kind : SrecType × ℕ) (count : ℕ) (input : List UInt8) :
    Except SrecError Srec :=
  let dataCount : ℤ := if kind.1 = .count then 0 else count - (kind.2 + 1)
  match readBytes kind.2 input with
  | none => .error .nosrec
  | some (address, input) =>
      match readBytes dataCount.toNat input with
      | none => .error .nosrec
      | some (data, input) =>
          match hex2Bin input with
          | none => .error .nosrec
          | some v =>
              let chksum := UInt8.ofNat count + byteSum address + byteSum data
              if UInt8.ofNat v ≠ ~~~chksum then .error .badchks
              else .ok ⟨kind.1, dataCount, addressOf address, data⟩

/-- `srec_decode`. -/
def srecDecode (input : List UInt8) : Except SrecError Srec :=
  let input := skipToRecord input
  if input = [] then .ok ⟨.empty, 0, 0, []⟩
  else
    match hex2Bin input.tail with
    | none => .error .nosrec
    | some count =>
        match srecKind (peek input) with
        | none => .error .badtype
        | some kind => decodeFields kind count (input.tail.drop 2)

/-! ## Bytes in hexadecimal -/

/-- `hex[d]`. -/
def hexDigit (d : ℕ) : UInt8 := (text "0123456789ABCDEF").getD d 0

/-- A byte in two digits. -/
def hexByte (b : UInt8) : List UInt8 :=
  [hexDigit (b.toNat / 16), hexDigit (b.toNat % 16)]

/-- Bytes in hexadecimal. -/
def hexBytes (bytes : List UInt8) : List UInt8 := bytes.flatMap hexByte

@[simp] theorem hexBytes_nil : hexBytes [] = [] := rfl

@[simp] theorem hexBytes_cons (b : UInt8) (bytes : List UInt8) :
    hexBytes (b :: bytes) = hexByte b ++ hexBytes bytes := rfl

@[simp] theorem hexBytes_append (xs ys : List UInt8) :
    hexBytes (xs ++ ys) = hexBytes xs ++ hexBytes ys := List.flatMap_append

theorem hexBytes_length (bytes : List UInt8) :
    (hexBytes bytes).length = 2 * bytes.length := by
  induction bytes with
  | nil => rfl
  | cons b bytes ih =>
      rw [hexBytes_cons, List.length_append, ih, List.length_cons, hexByte]
      simp only [List.length_cons, List.length_nil]
      omega

/-- A digit is read back. -/
theorem hex1Bin_hexDigit {d : ℕ} (hd : d < 16) :
    hex1Bin (hexDigit d) = some d := by
  have hall : ∀ e ∈ List.range 16, hex1Bin (hexDigit e) = some e := by decide
  exact hall d (List.mem_range.mpr hd)

theorem hex2Bin_hexByte (b : UInt8) (rest : List UInt8) :
    hex2Bin (hexByte b ++ rest) = some b.toNat := by
  have hb := b.toNat_lt
  have hhi := hex1Bin_hexDigit (d := b.toNat / 16) (by omega)
  have hlo := hex1Bin_hexDigit (d := b.toNat % 16) (by omega)
  simp only [hex2Bin, hexByte, List.cons_append, peek, List.tail_cons, hhi,
    hlo, Option.some.injEq]
  omega

/-- Bytes are read back. -/
theorem readBytes_hexBytes (bytes rest : List UInt8) :
    readBytes bytes.length (hexBytes bytes ++ rest) = some (bytes, rest) := by
  induction bytes with
  | nil => rfl
  | cons b bytes ih =>
      have hdrop : (hexByte b ++ (hexBytes bytes ++ rest)).drop 2 =
          hexBytes bytes ++ rest := rfl
      rw [List.length_cons, readBytes, hexBytes_cons, List.append_assoc,
        hex2Bin_hexByte, hdrop]
      simp only [ih, UInt8.ofNat_toNat]

/-! ## Records -/

/-- The text of a record with its type digit and bytes, checksum included. -/
def recordText (v : UInt8) (bytes : List UInt8) : List UInt8 :=
  let count := UInt8.ofNat (bytes.length + 1)
  [ch 'S', v] ++ hexByte count ++ hexBytes bytes ++
    hexByte (~~~(count + byteSum bytes))

theorem foldl_add (s : UInt8) (bytes : List UInt8) :
    bytes.foldl (· + ·) s = s + byteSum bytes := by
  induction bytes generalizing s with
  | nil => simp [byteSum]
  | cons b bytes ih =>
      rw [byteSum, List.foldl_cons, List.foldl_cons, ih, ih (0 + b),
        UInt8.zero_add, UInt8.add_assoc]

theorem byteSum_append (xs ys : List UInt8) :
    byteSum (xs ++ ys) = byteSum xs + byteSum ys := by
  rw [byteSum, List.foldl_append, foldl_add]
  rfl

/-- A record of an address and data is read back. -/
theorem srecDecode_recordText {v : UInt8} {type : SrecType}
    {address data : List UInt8}
    (hkind : srecKind v = some (type, address.length))
    (hcount : type ≠ .count) (hlen : address.length + data.length < 255) :
    srecDecode (recordText v (address ++ data)) =
      .ok ⟨type, data.length, addressOf address, data⟩ := by
  have hskip : skipToRecord (recordText v (address ++ data)) =
      v :: (hexByte (UInt8.ofNat ((address ++ data).length + 1)) ++
        (hexBytes (address ++ data) ++
          hexByte (~~~(UInt8.ofNat ((address ++ data).length + 1) +
            byteSum (address ++ data))))) := by
    simp [recordText, skipToRecord]
  have hn : (UInt8.ofNat ((address ++ data).length + 1)).toNat =
      address.length + data.length + 1 := by
    rw [UInt8.toNat_ofNat', List.length_append]
    omega
  generalize hsize : UInt8.ofNat ((address ++ data).length + 1) = size at *
  have hcountZ : ((size.toNat : ℕ) : ℤ) - ((address.length : ℕ) + 1 : ℤ) =
      data.length := by
    rw [hn]
    push_cast
    omega
  unfold srecDecode
  simp only [hskip, List.cons_ne_nil, if_false, List.tail_cons,
    hex2Bin_hexByte, peek, hkind]
  have hdrop : (hexByte size ++ (hexBytes (address ++ data) ++
      hexByte (~~~(size + byteSum (address ++ data))))).drop 2 =
        hexBytes (address ++ data) ++
          hexByte (~~~(size + byteSum (address ++ data))) := rfl
  rw [hdrop, hexBytes_append, List.append_assoc]
  have hchk := hex2Bin_hexByte (~~~(size + byteSum (address ++ data))) []
  rw [List.append_nil, byteSum_append, ← UInt8.add_assoc] at hchk
  rw [byteSum_append, ← UInt8.add_assoc]
  unfold decodeFields
  simp only [if_neg hcount, hcountZ, Int.toNat_natCast, readBytes_hexBytes,
    hchk, UInt8.ofNat_toNat, ne_eq, not_true_eq_false, if_false]

example : srecDecode (text "S30600000010AA3F") =
    .ok ⟨.data4, 1, 16, [0xAA]⟩ := by decide

end TateFirmware.Serial
