import TateFirmware.Serial.SRecord
import TateFirmware.Support.Memory

/-!
# Saving memory as S-records and loading it back

`saveSerial` is the `saves` upload of `common/cmd_load.c` and `loadSerial`
its `loads` download.  Addresses are 32 bits wide and a range may wrap around
at the top.  Pressing Ctrl-C on the console during an upload is left out.
-/

namespace TateFirmware.Serial

open LibGeneric Support

/-! ## Uppercase numbers -/

/-- `%02X` and `%08lX`, with the field width as an argument. -/
def formatHexLarge (size num : ℕ) : List UInt8 :=
  (number num 16 size ⟨true, false⟩).map toupper

theorem digits_padded {size num : ℕ} (hnum : num < 16 ^ size) :
    Nat.digits 16 num ++
        List.replicate (size - (Nat.digits 16 num).length) 0 =
      (List.range size).map fun i => num / 16 ^ i % 16 := by
  have hlen : (Nat.digits 16 num).length ≤ size :=
    (Nat.digits_length_le_iff (by decide) num).mpr hnum
  apply List.ext_getElem
  · simp only [List.length_append, List.length_replicate, List.length_map,
      List.length_range]
    omega
  · intro i hi hi'
    have hdigit := Nat.getD_digits num i (b := 16) (by decide)
    rw [List.getElem_map, List.getElem_range, ← hdigit]
    rcases Nat.lt_or_ge i (Nat.digits 16 num).length with hlt | hge
    · rw [List.getElem_append_left hlt, List.getD_eq_getElem _ _ hlt]
    · rw [List.getElem_append_right hge, List.getElem_replicate,
        List.getD_eq_default _ _ hge]

/-- A number that fits its field is printed with all its digits. -/
theorem number_zeropad {size num : ℕ} (hsize : 0 < size)
    (hnum : num < 16 ^ size) :
    number num 16 size ⟨true, false⟩ =
      (List.range size).reverse.map fun i => digitChar (num / 16 ^ i % 16) := by
  have hzero : digitChar 0 = ch '0' := by decide
  by_cases h0 : num = 0
  · subst h0
    have hrep : List.replicate (size - 1) (ch '0') ++ [ch '0'] =
        List.replicate size (ch '0') := by
      rw [← List.replicate_succ', Nat.sub_add_cancel hsize]
    simp only [number, Bool.false_and, Bool.false_eq_true, if_false, if_true,
      List.length_nil, List.length_singleton, List.nil_append, Nat.sub_zero,
      Nat.zero_div, Nat.zero_mod, hzero, hrep, List.map_const',
      List.length_reverse, List.length_range]
  · have hpadded := congrArg (fun l => (l.map digitChar).reverse)
      (digits_padded hnum)
    simp only [List.map_append, List.map_replicate, List.reverse_append,
      List.reverse_replicate, List.map_map, hzero] at hpadded
    simp only [number, Bool.false_and, Bool.false_eq_true, if_false, if_true,
      if_neg h0, List.length_nil, Nat.sub_zero, List.nil_append,
      List.length_reverse, List.length_map]
    rw [hpadded, ← List.map_reverse]
    rfl

/-- The hexadecimal digits of a byte and of a number agree. -/
theorem toupper_digitChar {d : ℕ} (hd : d < 16) :
    toupper (digitChar d) = hexDigit d := by
  have hall : ∀ e ∈ List.range 16, toupper (digitChar e) = hexDigit e := by
    decide
  exact hall d (List.mem_range.mpr hd)

theorem formatHexLarge_eq {size num : ℕ} (hsize : 0 < size)
    (hnum : num < 16 ^ size) :
    formatHexLarge size num =
      (List.range size).reverse.map fun i => hexDigit (num / 16 ^ i % 16) := by
  rw [formatHexLarge, number_zeropad hsize hnum, List.map_map]
  apply List.map_congr_left
  intro i _
  exact toupper_digitChar (Nat.mod_lt _ (by decide))

/-- The four bytes of an address, the most significant one first. -/
def addressBytes (address : ℕ) : List UInt8 :=
  [UInt8.ofNat (address / 2 ^ 24), UInt8.ofNat (address / 2 ^ 16),
    UInt8.ofNat (address / 2 ^ 8), UInt8.ofNat address]

theorem addressOf_addressBytes {address : ℕ} (haddress : address < 2 ^ 32) :
    addressOf (addressBytes address) = address := by
  simp only [addressOf, addressBytes, List.foldl_cons, List.foldl_nil,
    UInt8.toNat_ofNat']
  omega

theorem formatHexLarge_byte (b : UInt8) :
    formatHexLarge 2 b.toNat = hexByte b := by
  have hb := b.toNat_lt
  rw [formatHexLarge_eq (by decide) (by omega), hexByte]
  have hhi : b.toNat / 16 % 16 = b.toNat / 16 := by omega
  simp [List.range_succ, hhi]

theorem formatHexLarge_address {address : ℕ} (haddress : address < 2 ^ 32) :
    formatHexLarge 8 address = hexBytes (addressBytes address) := by
  rw [formatHexLarge_eq (by decide) (by omega)]
  simp only [addressBytes, hexBytes_cons, hexBytes_nil, hexByte,
    UInt8.toNat_ofNat', List.append_nil, List.cons_append, List.nil_append]
  simp only [List.range_succ, List.range_zero, List.nil_append,
    List.cons_append, List.reverse_cons, List.reverse_nil, List.map_cons,
    List.map_nil]
  simp only [List.cons.injEq, and_true]
  refine ⟨?_, ?_, ?_, ?_, ?_, ?_, ?_, ?_⟩ <;> congr 1 <;> omega

/-! ## The upload -/

/-- The locals of `save_serial` from one byte to the next: the address of the
record being collected, the bytes in it, their sum and their digits. -/
structure SaveBuffer where
  address : ℕ
  reclen : ℕ
  checksum : ℕ
  data : List UInt8

/-- Get one byte into the buffer. -/
def collect (mem : Memory UInt8) (buf : SaveBuffer) : SaveBuffer :=
  let c := mem ((buf.address + buf.reclen) % 2 ^ 32)
  { buf with
    reclen := buf.reclen + 1
    checksum := buf.checksum + c.toNat
    data := buf.data ++
      [hexDigit (c.toNat / 16 % 16), hexDigit (c.toNat % 16)] }

/-- `SREC3_FORMAT` filled in from the buffer, or nothing if it is empty. -/
def dump (buf : SaveBuffer) : List (List UInt8) :=
  if buf.reclen = 0 then []
  else
    let length := 4 + buf.reclen + 1
    let checksum := buf.checksum + (length % 256 + length / 256 % 256) +
      (buf.address % 256 + buf.address / 2 ^ 8 % 256 +
        buf.address / 2 ^ 16 % 256 + buf.address / 2 ^ 24 % 256)
    [text "S3" ++ formatHexLarge 2 length ++ formatHexLarge 8 buf.address ++
      buf.data ++ formatHexLarge 2 (255 - checksum % 256) ++ text "\n"]

/-- The buffer behind a record. -/
def nextBuffer (buf : SaveBuffer) : SaveBuffer :=
  ⟨(buf.address + buf.reclen) % 2 ^ 32, 0, 0, []⟩

/-- `SREC_BYTES_PER_RECORD`. -/
def srecBytesPerRecord : ℕ := 16

/-- The records the loop of `save_serial` writes for `count` more bytes. -/
def saveRecords (mem : Memory UInt8) : ℕ → SaveBuffer → List (List UInt8)
  | 0, buf => dump buf
  | count + 1, buf =>
      let buf := collect mem buf
      if buf.reclen = srecBytesPerRecord ∨ count = 0 then
        dump buf ++
          (if count = 0 then [] else saveRecords mem count (nextBuffer buf))
      else saveRecords mem count buf

/-- `save_serial`: the texts handed to `write_record`. -/
def saveSerial (mem : Memory UInt8) (address count : ℕ) : List (List UInt8) :=
  text "S0030000FC\n" ::
    (saveRecords mem count ⟨address, 0, 0, []⟩ ++ [text "S70500000000FA\n"])

/-! ## What is uploaded -/

/-- The ranges of the data records. -/
def recordRanges (address count : ℕ) : List (ℕ × ℕ) :=
  if _h : count = 0 then []
  else
    (address, min count srecBytesPerRecord) ::
      recordRanges ((address + min count srecBytesPerRecord) % 2 ^ 32)
        (count - min count srecBytesPerRecord)
termination_by count
decreasing_by
  rw [srecBytesPerRecord]
  omega

/-- The line of one range. -/
def rangeLine (mem : Memory UInt8) (range : ℕ × ℕ) : List UInt8 :=
  recordText (ch '3')
    (addressBytes range.1 ++ mem.wrap.read range.1 range.2) ++ text "\n"

/-- A buffer with the first `r` bytes of a record. -/
def SaveBuffer.Collected (mem : Memory UInt8) (address r : ℕ)
    (buf : SaveBuffer) : Prop :=
  buf.address = address ∧ buf.reclen = r ∧
    buf.checksum = ((mem.wrap.read address r).map UInt8.toNat).sum ∧
      buf.data = hexBytes (mem.wrap.read address r)

theorem collected_empty (mem : Memory UInt8) (address : ℕ) :
    SaveBuffer.Collected mem address 0 ⟨address, 0, 0, []⟩ :=
  ⟨rfl, rfl, rfl, rfl⟩

theorem read_succ (mem : Memory UInt8) (p n : ℕ) :
    mem.read p (n + 1) = mem.read p n ++ [mem (p + n)] := by
  simp [Memory.read, List.range_succ]

theorem SaveBuffer.Collected.collect {mem : Memory UInt8} {address r : ℕ}
    {buf : SaveBuffer} (hbuf : buf.Collected mem address r) :
    (collect mem buf).Collected mem address (r + 1) := by
  obtain ⟨haddress, hreclen, hchecksum, hdata⟩ := hbuf
  have hc := (mem ((address + r) % 2 ^ 32)).toNat_lt
  refine ⟨haddress, ?_, ?_, ?_⟩
  · simp only [Serial.collect, hreclen]
  · simp only [Serial.collect, hchecksum, haddress, hreclen, read_succ,
      List.map_append, List.sum_append, List.map_singleton,
      List.sum_singleton, Memory.wrap]
  · have hdigit : (mem ((address + r) % 2 ^ 32)).toNat / 16 % 16 =
        (mem ((address + r) % 2 ^ 32)).toNat / 16 := by omega
    simp only [Serial.collect, hdata, haddress, hreclen, read_succ,
      hexBytes_append, hexBytes_cons, hexBytes_nil, hexByte, Memory.wrap,
      hdigit,
      List.append_nil]

theorem byteSum_toNat (bytes : List UInt8) :
    (byteSum bytes).toNat = (bytes.map UInt8.toNat).sum % 256 := by
  induction bytes with
  | nil => rfl
  | cons b bytes ih =>
      have hsum : byteSum (b :: bytes) = b + byteSum bytes := by
        rw [byteSum, List.foldl_cons, foldl_add, UInt8.zero_add]
      rw [hsum, UInt8.toNat_add, ih, List.map_cons, List.sum_cons]
      omega

theorem SaveBuffer.Collected.dump {mem : Memory UInt8} {address r : ℕ}
    {buf : SaveBuffer} (hbuf : buf.Collected mem address r)
    (haddress : address < 2 ^ 32) (hr : r ≠ 0) (hmax : r ≤ 16) :
    dump buf = [rangeLine mem (address, r)] := by
  obtain ⟨haddr, hreclen, hchecksum, hdata⟩ := hbuf
  have hsize : (addressBytes address ++ mem.wrap.read address r).length + 1 =
      4 + r + 1 := by
    simp only [addressBytes, List.length_append, List.length_cons,
      List.length_nil, Memory.read_length]
  have hlength : (UInt8.ofNat (4 + r + 1)).toNat = 4 + r + 1 := by
    rw [UInt8.toNat_ofNat']
    omega
  have hsum : ((addressBytes address).map UInt8.toNat).sum =
      address / 2 ^ 24 % 256 + (address / 2 ^ 16 % 256 +
        (address / 2 ^ 8 % 256 + (address % 256))) := by
    simp [addressBytes]
  rw [Serial.dump, if_neg (by omega), rangeLine, recordText]
  simp only [hsize]
  have hbyte := formatHexLarge_byte (UInt8.ofNat (4 + r + 1))
  rw [hlength] at hbyte
  have hcheck : (~~~(UInt8.ofNat (4 + r + 1) +
      byteSum (addressBytes address ++ mem.wrap.read address r))).toNat =
        255 - (buf.checksum + ((4 + r + 1) % 256 + (4 + r + 1) / 256 % 256) +
      (address % 256 + address / 2 ^ 8 % 256 +
        address / 2 ^ 16 % 256 + address / 2 ^ 24 % 256)) % 256 := by
    rw [UInt8.toNat_not, UInt8.toNat_add, byteSum_append, UInt8.toNat_add,
      byteSum_toNat, byteSum_toNat, hsum, hlength, hchecksum]
    have hsize256 : UInt8.size = 256 := rfl
    omega
  rw [haddr, hreclen, ← hcheck, formatHexLarge_byte, hbyte, hdata,
    formatHexLarge_address haddress]
  simp only [hexBytes_append, List.append_assoc]
  rfl

/-- A range whose record is already begun. -/
theorem recordRanges_of_pos {address count : ℕ} (hcount : count ≠ 0) :
    recordRanges address count =
      (address, min count 16) ::
        recordRanges ((address + min count 16) % 2 ^ 32)
          (count - min count 16) := by
  rw [recordRanges, dif_neg hcount]
  rfl

theorem recordRanges_zero (address : ℕ) : recordRanges address 0 = [] := by
  rw [recordRanges, dif_pos rfl]

/-- The loop writes the line of every range. -/
theorem saveRecords_eq (mem : Memory UInt8) {address r count : ℕ}
    {buf : SaveBuffer} (hbuf : buf.Collected mem address r)
    (haddress : address < 2 ^ 32) (hr : r < 16)
    (hcount : count = 0 → r = 0) :
    saveRecords mem count buf =
      (recordRanges address (r + count)).map (rangeLine mem) := by
  induction count generalizing address r buf with
  | zero =>
      have hr0 := hcount rfl
      subst hr0
      rw [saveRecords, dump, if_pos hbuf.2.1, recordRanges_zero,
        List.map_nil]
  | succ count ih =>
      have hcollect := hbuf.collect
      have hreclen : (collect mem buf).reclen = r + 1 := hcollect.2.1
      rw [saveRecords, hreclen]
      by_cases hfull : r + 1 = srecBytesPerRecord ∨ count = 0
      · have hnext : nextBuffer (collect mem buf) =
            ⟨(address + (r + 1)) % 2 ^ 32, 0, 0, []⟩ := by
          rw [nextBuffer, hcollect.1, hreclen]
        have hmin : min (r + (count + 1)) 16 = r + 1 := by
          rw [srecBytesPerRecord] at hfull
          omega
        have hrest : r + (count + 1) - (r + 1) = count := by omega
        rw [if_pos hfull, hcollect.dump haddress (by omega) (by omega), hnext,
          recordRanges_of_pos (by omega), hmin, hrest, List.map_cons]
        by_cases h0 : count = 0
        · rw [if_pos h0, h0, recordRanges_zero]
          rfl
        · rw [if_neg h0, ih (collected_empty mem _)
            (Nat.mod_lt _ (by decide)) (by decide) (fun _ => rfl),
            Nat.zero_add]
          rfl
      · rw [srecBytesPerRecord] at hfull
        have hsum : r + 1 + count = r + (count + 1) := by omega
        rw [if_neg (by rw [srecBytesPerRecord]; exact hfull),
          ih hcollect haddress (by omega) (by omega), hsum]

/-- The uploaded lines, range by range. -/
theorem saveSerial_eq (mem : Memory UInt8) {address : ℕ} (count : ℕ)
    (haddress : address < 2 ^ 32) :
    saveSerial mem address count =
      text "S0030000FC\n" ::
        ((recordRanges address count).map (rangeLine mem) ++
          [text "S70500000000FA\n"]) := by
  rw [saveSerial, saveRecords_eq mem (collected_empty mem address) haddress
    (by decide) (fun _ => rfl), Nat.zero_add]

end TateFirmware.Serial
