import TateFirmware.Flash.Write
import TateFirmware.Serial.SaveSerial

/-!
# Loading S-records from the console

`readRecord` gets a line from the characters that still arrive and
`loadSerial` stores the data of the records at their addresses: with `memcpy`,
or with `flash_write` if the address is in a bank of the NOR flash.  What
`saveSerial` sends is stored exactly where it was taken from, as long as that
is outside the banks; in a bank a protected sector ends the download.
-/

namespace TateFirmware.Serial

open LibGeneric Support

/-! ## The download -/

/-- `SREC_MAXRECLEN`, the room for the characters of a record. -/
def srecMaxreclen : ℕ := 512 + 4

/-- What `read_record` gets out of the characters that arrive. -/
inductive ReadRecord where
  /-- A record and the characters behind it. -/
  | record (buf : List UInt8) (input : List UInt8)
  /-- The return value `-1`. -/
  | aborted
  /-- `getc` does not return. -/
  | waiting

/-- `read_record` with room for `len` characters, of which `buf` are read. -/
def readRecord (buf : List UInt8) : ℕ → List UInt8 → ReadRecord
  | 0, input => .record buf input
  | _ + 1, [] => .waiting
  | len + 1, c :: input =>
      if c = 13 ∨ c = 10 then .record buf input
      else if c = 0 ∨ c = 3 then .aborted
      else readRecord (buf ++ [c]) len input

/-- What `load_serial` keeps from one record to the next. -/
structure LoadState where
  mem : Memory UInt8
  startAddr : ℕ
  endAddr : ℕ

/-- How a download ends. -/
inductive LoadResult where
  /-- The returned address, the value of `filesize` and the memory. -/
  | done (addr size : ℕ) (mem : Memory UInt8)
  /-- The return value `~0`. -/
  | aborted (mem : Memory UInt8)
  /-- A negative number of bytes is copied. -/
  | crashed
  /-- More characters are needed. -/
  | waiting (mem : Memory UInt8)

/-- The NOR flash of a board: its banks, none with `CFG_NO_FLASH`, and what
`write_buff` returns for the last of the calls made for a source and leaves in
memory. -/
structure FlashDriver where
  flashInfo : List Flash.FlashInfo
  writeBuff : Memory UInt8 → List UInt8 → List Flash.WriteCall →
    ℤ × Memory UInt8

/-- The memory behind some calls of `write_buff`. -/
def FlashDriver.written (flash : FlashDriver) (mem : Memory UInt8)
    (src : List UInt8) (calls : List Flash.WriteCall) : Memory UInt8 :=
  if calls.isEmpty then mem else (flash.writeBuff mem src calls).2

/-- The length that `load_serial` passes to `memcpy`, a `size_t`. -/
def Srec.copyLength (srec : Srec) : ℕ := (srec.count % 2 ^ 32).toNat

/-- `start_addr` and `end_addr` behind `binlen` bytes. -/
def LoadState.cover (st : LoadState) (storeAddr : ℕ) (binlen : ℤ)
    (mem : Memory UInt8) : LoadState where
  mem := mem
  startAddr := if storeAddr < st.startAddr then storeAddr else st.startAddr
  endAddr :=
    if ((storeAddr + binlen - 1) % 2 ^ 32).toNat > st.endAddr then
      ((storeAddr + binlen - 1) % 2 ^ 32).toNat
    else st.endAddr

/-- Store the data of a record. -/
def LoadState.storeData (st : LoadState) (flash : FlashDriver)
    (storeAddr : ℕ) (srec : Srec) : Except LoadResult LoadState :=
  let addr := UInt32.ofNat storeAddr
  if (Flash.addr2info flash.flashInfo addr).isSome then
    let (rc, calls) := Flash.flashWrite flash.flashInfo
      (fun calls => (flash.writeBuff st.mem srec.data calls).1) addr
      (UInt32.ofNat srec.copyLength)
    -- the calls then go on behind `binbuf`
    if srec.count < 0 ∧ calls.isEmpty = false then .error .crashed
    else if rc ≠ 0 then
      .error (.aborted (flash.written st.mem srec.data calls))
    else .ok (st.cover storeAddr srec.count (flash.written st.mem srec.data calls))
  else if srec.count < 0 then .error .crashed
  else .ok (st.cover storeAddr srec.count (st.mem.copyWrap storeAddr srec.data))

/-- The state behind a record that is not an end record. -/
def LoadState.record (st : LoadState) (flash : FlashDriver) (offset : ℕ)
    (srec : Srec) : Except LoadResult LoadState :=
  if srec.type = .data2 ∨ srec.type = .data3 ∨ srec.type = .data4 then
    st.storeData flash ((srec.addr + offset) % 2 ^ 32) srec
  else .ok st

theorem readRecord_length {buf : List UInt8} {len : ℕ}
    {input line rest : List UInt8} (hlen : 0 < len)
    (hread : readRecord buf len input = .record line rest) :
    rest.length < input.length := by
  induction len generalizing buf input with
  | zero => omega
  | succ len ih =>
      cases input with
      | nil => simp [readRecord] at hread
      | cons c input =>
          rw [readRecord] at hread
          split at hread
          · obtain ⟨-, rfl⟩ := by simpa using hread
            simp
          · split at hread
            · simp at hread
            · rcases Nat.eq_zero_or_pos len with h0 | hpos
              · subst h0
                obtain ⟨-, rfl⟩ := by simpa [readRecord] using hread
                simp
              · have := ih hpos hread
                rw [List.length_cons]
                omega

/-- `load_serial`. -/
def loadSerial (flash : FlashDriver) (offset : ℕ) (input : List UInt8)
    (st : LoadState) : LoadResult :=
  match _hread : readRecord [] srecMaxreclen input with
  | .aborted => .aborted st.mem
  | .waiting => .waiting st.mem
  | .record line rest =>
      match srecDecode line with
      | .error _ => .aborted st.mem
      | .ok srec =>
          if srec.type = .end2 ∨ srec.type = .end3 ∨ srec.type = .end4 then
            .done srec.addr ((st.endAddr + 2 ^ 32 - st.startAddr + 1) % 2 ^ 32)
              st.mem
          else
            match st.record flash offset srec with
            | .error result => result
            | .ok st => loadSerial flash offset rest st
termination_by input.length
decreasing_by exact readRecord_length (by decide) _hread

/-! ## Lines on the console -/

/-- A character that `read_record` takes for a part of a record. -/
def Plain (c : UInt8) : Prop := c ≠ 13 ∧ c ≠ 10 ∧ c ≠ 0 ∧ c ≠ 3

instance : DecidablePred Plain :=
  fun c => inferInstanceAs (Decidable (c ≠ 13 ∧ c ≠ 10 ∧ c ≠ 0 ∧ c ≠ 3))

theorem readRecord_line {body : List UInt8} (hplain : ∀ c ∈ body, Plain c)
    (buf rest : List UInt8) {len : ℕ} (hlen : body.length < len) :
    readRecord buf len (body ++ text "\n" ++ rest) =
      .record (buf ++ body) rest := by
  have hnewline : text "\n" = [10] := by decide
  rw [hnewline]
  induction body generalizing buf len with
  | nil =>
      obtain ⟨n, rfl⟩ := Nat.exists_eq_succ_of_ne_zero (Nat.ne_of_gt hlen)
      simp [readRecord]
  | cons c body ih =>
      rw [List.length_cons] at hlen
      obtain ⟨n, rfl⟩ := Nat.exists_eq_succ_of_ne_zero (Nat.ne_zero_of_lt hlen)
      obtain ⟨hcr, hlf, hnul, hbrk⟩ := hplain c List.mem_cons_self
      have htail := ih (fun d hd => hplain d (List.mem_cons_of_mem c hd))
        (buf ++ [c]) (show body.length < n by omega)
      rw [List.append_assoc buf [c] body] at htail
      rw [List.cons_append, List.cons_append, Nat.succ_eq_add_one, readRecord,
        if_neg (by tauto), if_neg (by tauto)]
      exact htail

/-- A line that is a record is taken over, and only an end record ends the
download. -/
theorem loadSerial_line {body : List UInt8} {srec : Srec}
    (hplain : ∀ c ∈ body, Plain c) (hlen : body.length < 516)
    (hdecode : srecDecode body = .ok srec) (flash : FlashDriver) (offset : ℕ)
    (rest : List UInt8) (st : LoadState) :
    loadSerial flash offset (body ++ text "\n" ++ rest) st =
      if srec.type = .end2 ∨ srec.type = .end3 ∨ srec.type = .end4 then
        .done srec.addr ((st.endAddr + 2 ^ 32 - st.startAddr + 1) % 2 ^ 32)
          st.mem
      else
        match st.record flash offset srec with
        | .error result => result
        | .ok st => loadSerial flash offset rest st := by
  have hread := readRecord_line hplain [] rest
    (show body.length < srecMaxreclen from hlen)
  rw [List.nil_append] at hread
  rw [loadSerial]
  split
  · rename_i h
    rw [hread] at h
    cases h
  · rename_i h
    rw [hread] at h
    cases h
  · rename_i line rest' h
    rw [hread] at h
    obtain ⟨rfl, rfl⟩ := by simpa using h
    rw [hdecode]

theorem plain_hexDigit {d : ℕ} (hd : d < 16) : Plain (hexDigit d) := by
  have hall : ∀ e ∈ List.range 16, Plain (hexDigit e) := by decide
  exact hall d (List.mem_range.mpr hd)

theorem plain_hexByte {b c : UInt8} (hc : c ∈ hexByte b) : Plain c := by
  have hb := b.toNat_lt
  rw [hexByte] at hc
  rcases List.mem_cons.mp hc with rfl | hc
  · exact plain_hexDigit (by omega)
  · rw [List.mem_singleton.mp hc]
    exact plain_hexDigit (by omega)

theorem plain_hexBytes {bytes : List UInt8} {c : UInt8}
    (hc : c ∈ hexBytes bytes) : Plain c := by
  obtain ⟨b, -, hb⟩ := List.mem_flatMap.mp hc
  exact plain_hexByte hb

theorem plain_recordText {v : UInt8} {bytes : List UInt8} (hv : Plain v) :
    ∀ c ∈ recordText v bytes, Plain c := by
  intro c hc
  have hs : Plain (ch 'S') := by decide
  simp only [recordText, List.mem_append, List.mem_cons, List.not_mem_nil,
    or_false] at hc
  rcases hc with (((rfl | rfl) | hc) | hc) | hc
  · exact hs
  · exact hv
  · exact plain_hexByte hc
  · exact plain_hexBytes hc
  · exact plain_hexByte hc

theorem recordText_length (v : UInt8) (bytes : List UInt8) :
    (recordText v bytes).length = 2 * bytes.length + 6 := by
  simp only [recordText, List.length_append, hexBytes_length, hexByte,
    List.length_cons, List.length_nil]
  omega

/-! ## The range comes back -/

/-- Memory `m` with the cells of a range taken from `mem`. -/
def withRange (mem : Memory UInt8) (address count : ℕ) (m : Memory UInt8) :
    Memory UInt8 :=
  fun k => if k < 2 ^ 32 ∧ (k + 2 ^ 32 - address) % 2 ^ 32 < count then mem k
    else m k

theorem withRange_zero (mem m : Memory UInt8) (address : ℕ) :
    withRange mem address 0 m = m := by
  funext k
  simp [withRange]

theorem copyWrap_read (mem m : Memory UInt8) {address n : ℕ}
    (haddress : address < 2 ^ 32) :
    m.copyWrap address (mem.wrap.read address n) =
      withRange mem address n m := by
  funext k
  unfold Memory.copyWrap withRange
  by_cases hk : k < 2 ^ 32
  · rw [if_pos hk]
    by_cases hn : (k + 2 ^ 32 - address) % 2 ^ 32 < n
    · have hlen : (k + 2 ^ 32 - address) % 2 ^ 32 <
          (mem.wrap.read address n).length := by
        rwa [Memory.read_length]
      have hback : (address + (k + 2 ^ 32 - address) % 2 ^ 32) % 2 ^ 32 = k := by
        omega
      rw [List.getD_eq_getElem _ _ hlen, Memory.read_getElem, Memory.wrap, hback,
        if_pos ⟨hk, hn⟩]
    · have hlen : (mem.wrap.read address n).length ≤
          (k + 2 ^ 32 - address) % 2 ^ 32 := by
        rw [Memory.read_length]
        omega
      rw [List.getD_eq_default _ _ hlen, if_neg (by tauto)]
  · rw [if_neg hk, if_neg (by tauto)]

theorem withRange_withRange (mem m : Memory UInt8) {address n count : ℕ}
    (haddress : address < 2 ^ 32) (hn : n + count < 2 ^ 32) :
    withRange mem ((address + n) % 2 ^ 32) count
        (withRange mem address n m) =
      withRange mem address (n + count) m := by
  funext k
  unfold withRange
  by_cases hk : k < 2 ^ 32
  · have hshift : (k + 2 ^ 32 - (address + n) % 2 ^ 32) % 2 ^ 32 =
        ((k + 2 ^ 32 - address) % 2 ^ 32 + 2 ^ 32 - n) % 2 ^ 32 := by omega
    rw [hshift]
    generalize hd : (k + 2 ^ 32 - address) % 2 ^ 32 = d
    have hdlt : d < 2 ^ 32 := by omega
    simp only [hk, true_and]
    by_cases hfirst : d < n
    · have hnot : ¬ (d + 2 ^ 32 - n) % 2 ^ 32 < count := by omega
      rw [if_neg hnot, if_pos hfirst, if_pos (by omega)]
    · by_cases hsecond : d < n + count
      · rw [if_pos (by omega), if_pos hsecond]
      · rw [if_neg (by omega), if_neg hfirst, if_neg hsecond]
  · rw [if_neg (by tauto), if_neg (by tauto), if_neg (by tauto)]

theorem srecDecode_rangeLine (mem : Memory UInt8) {address n : ℕ}
    (haddress : address < 2 ^ 32) (hn : n ≤ 16) :
    srecDecode (recordText (ch '3')
        (addressBytes address ++ mem.wrap.read address n)) =
      .ok ⟨.data4, n, address, mem.wrap.read address n⟩ := by
  have hdecode := @srecDecode_recordText (ch '3') .data4
    (addressBytes address) (mem.wrap.read address n) rfl (by decide)
    (by simp [addressBytes]; omega)
  rwa [addressOf_addressBytes haddress, Memory.read_length] at hdecode

/-- The record of a range is stored, and what that comes to decides how the
download goes on. -/
theorem loadSerial_rangeLine (flash : FlashDriver) (mem : Memory UInt8)
    {address n : ℕ} (haddress : address < 2 ^ 32) (hn : n ≤ 16)
    (rest : List UInt8) (st : LoadState) :
    loadSerial flash 0 (rangeLine mem (address, n) ++ rest) st =
      match st.storeData flash address
        ⟨.data4, n, address, mem.wrap.read address n⟩ with
      | .error result => result
      | .ok st => loadSerial flash 0 rest st := by
  have hplain : ∀ c ∈ recordText (ch '3')
      (addressBytes address ++ mem.wrap.read address n), Plain c :=
    plain_recordText (by decide)
  have hlen : (recordText (ch '3')
      (addressBytes address ++ mem.wrap.read address n)).length < 516 := by
    simp only [recordText_length, addressBytes, List.length_append,
      List.length_cons, List.length_nil, Memory.read_length]
    omega
  rw [rangeLine, loadSerial_line hplain hlen
    (srecDecode_rangeLine mem haddress hn), if_neg (by simp)]
  simp only [LoadState.record, or_true, if_true, Nat.add_zero,
    Nat.mod_eq_of_lt haddress]

/-- No address of a range is in a bank of the flash. -/
def OutsideBanks (flash : FlashDriver) (address count : ℕ) : Prop :=
  ∀ j < count, Flash.addr2info flash.flashInfo
    (UInt32.ofNat ((address + j) % 2 ^ 32)) = none

/-- A record outside the banks is copied. -/
theorem storeData_outside {flash : FlashDriver} {address n : ℕ}
    (haddress : address < 2 ^ 32) (hn : 0 < n)
    (houtside : OutsideBanks flash address n) (st : LoadState)
    (data : List UInt8) :
    st.storeData flash address ⟨.data4, n, address, data⟩ =
      .ok (st.cover address n (st.mem.copyWrap address data)) := by
  have hnone := houtside 0 hn
  rw [Nat.add_zero, Nat.mod_eq_of_lt haddress] at hnone
  have hcount : ¬ (n : ℤ) < 0 := by omega
  simp only [LoadState.storeData, hnone, Option.isSome_none,
    Bool.false_eq_true, if_false, if_neg hcount]

theorem OutsideBanks.first {flash : FlashDriver} {address count n : ℕ}
    (h : OutsideBanks flash address count) (hn : n ≤ count) :
    OutsideBanks flash address n :=
  fun j hj => h j (by omega)

theorem OutsideBanks.rest {flash : FlashDriver} {address count n : ℕ}
    (h : OutsideBanks flash address count) :
    OutsideBanks flash ((address + n) % 2 ^ 32) (count - n) := by
  intro j hj
  have hshift : ((address + n) % 2 ^ 32 + j) % 2 ^ 32 =
      (address + (n + j)) % 2 ^ 32 := by omega
  rw [hshift]
  exact h (n + j) (by omega)

/-- The data records bring back the whole range. -/
theorem loadSerial_recordRanges (flash : FlashDriver) (mem : Memory UInt8)
    {address count : ℕ} (haddress : address < 2 ^ 32)
    (hcount : count < 2 ^ 32) (houtside : OutsideBanks flash address count)
    (rest : List UInt8) (st : LoadState) :
    ∃ st' : LoadState, st'.mem = withRange mem address count st.mem ∧
      loadSerial flash 0
        (((recordRanges address count).map (rangeLine mem)).flatten ++ rest) st =
          loadSerial flash 0 rest st' := by
  induction count using Nat.strong_induction_on generalizing address st with
  | _ count ih =>
      by_cases h0 : count = 0
      · refine ⟨st, ?_, ?_⟩
        · rw [h0, withRange_zero]
        · rw [h0, recordRanges_zero]
          rfl
      · have hn : min count 16 ≤ 16 := Nat.min_le_right _ _
        obtain ⟨st', hmem, hload⟩ := ih (count - min count 16) (by omega)
          (Nat.mod_lt (address + min count 16) (by decide)) (by omega)
          houtside.rest
          (st.cover address (min count 16 : ℕ)
            (st.mem.copyWrap address (mem.wrap.read address (min count 16))))
        have hrest : min count 16 + (count - min count 16) = count := by omega
        refine ⟨st', ?_, ?_⟩
        · rw [hmem, LoadState.cover, copyWrap_read mem _ haddress,
            withRange_withRange mem _ haddress (by omega), hrest]
        · rw [recordRanges_of_pos h0, List.map_cons, List.flatten_cons,
            List.append_assoc, loadSerial_rangeLine flash mem haddress hn,
            storeData_outside haddress (by omega)
              (houtside.first (Nat.min_le_left _ _))]
          exact hload

theorem recordRanges_bounds {address count : ℕ} (haddress : address < 2 ^ 32) :
    ∀ range ∈ recordRanges address count, range.1 < 2 ^ 32 ∧ range.2 ≤ 16 := by
  induction count using Nat.strong_induction_on generalizing address with
  | _ count ih =>
      intro range hrange
      by_cases h0 : count = 0
      · rw [h0, recordRanges_zero] at hrange
        cases hrange
      · rw [recordRanges_of_pos h0] at hrange
        rcases List.mem_cons.mp hrange with rfl | hrange
        · exact ⟨haddress, Nat.min_le_right _ _⟩
        · exact ih _ (by omega) (Nat.mod_lt _ (by decide)) range hrange

/-- The state `load_serial` starts in. -/
def LoadState.init (mem : Memory UInt8) : LoadState := ⟨mem, 2 ^ 32 - 1, 0⟩

theorem headerLine_eq :
    text "S0030000FC\n" = text "S0030000FC" ++ text "\n" := by decide

theorem endLine_eq :
    text "S70500000000FA\n" = text "S70500000000FA" ++ text "\n" := by decide

/-- Every line of an upload is one record with its checksum and its length. -/
def LinesAccepted (lines : List (List UInt8)) : Prop :=
  ∀ line ∈ lines, ∃ v bytes srec, line = recordText v bytes ++ text "\n" ∧
    srecDecode (recordText v bytes) = .ok srec ∧
      srec.count = srec.data.length

/-- A download of the lines into `m` brings back exactly the bytes of the
range. -/
def LoadsBack (flash : FlashDriver) (mem m : Memory UInt8)
    (address count : ℕ) : Prop :=
  ∃ addr size m',
    loadSerial flash 0 (saveSerial mem address count).flatten
        (LoadState.init m) = .done addr size m' ∧
    (∀ j < count, m' ((address + j) % 2 ^ 32) =
      mem ((address + j) % 2 ^ 32)) ∧
    ∀ k, (∀ j < count, k ≠ (address + j) % 2 ^ 32) → m' k = m k

theorem saveSerial_accepted (mem : Memory UInt8) {address : ℕ} (count : ℕ)
    (haddress : address < 2 ^ 32) :
    LinesAccepted (saveSerial mem address count) := by
  rw [saveSerial_eq mem count haddress]
  intro line hline
  rcases List.mem_cons.mp hline with rfl | hline
  · exact ⟨ch '0', [0, 0], ⟨.start, 0, 0, []⟩, by decide, by decide +kernel,
      rfl⟩
  · rcases List.mem_append.mp hline with hline | hline
    · obtain ⟨range, hrange, rfl⟩ := List.mem_map.mp hline
      obtain ⟨haddr, hn⟩ := recordRanges_bounds haddress range hrange
      exact ⟨ch '3', _, _, rfl, srecDecode_rangeLine mem haddr hn,
        by rw [Memory.read_length]⟩
    · rw [List.mem_singleton.mp hline]
      exact ⟨ch '7', [0, 0, 0, 0], ⟨.end4, 0, 0, []⟩, by decide,
        by decide +kernel, rfl⟩

theorem loadSerial_header (flash : FlashDriver) (rest : List UInt8)
    (st : LoadState) :
    loadSerial flash 0 (text "S0030000FC\n" ++ rest) st =
      loadSerial flash 0 rest st := by
  have hdecode : srecDecode (text "S0030000FC") =
      .ok ⟨.start, 0, 0, []⟩ := by decide +kernel
  rw [headerLine_eq, loadSerial_line (by decide +kernel) (by decide) hdecode,
    if_neg (by decide)]
  rfl

/-- Every line of an upload is accepted, and a range outside the banks of the
flash comes back. -/
theorem loadSerial_saveSerial (flash : FlashDriver) (mem m : Memory UInt8)
    {address count : ℕ} (haddress : address < 2 ^ 32)
    (hcount : count < 2 ^ 32) (houtside : OutsideBanks flash address count) :
    LinesAccepted (saveSerial mem address count) ∧
      LoadsBack flash mem m address count := by
  refine ⟨saveSerial_accepted mem count haddress, ?_⟩
  obtain ⟨st', hmem, hload⟩ := loadSerial_recordRanges flash mem haddress
    hcount houtside (text "S70500000000FA\n") (LoadState.init m)
  have hdecode : srecDecode (text "S70500000000FA") =
      .ok ⟨.end4, 0, 0, []⟩ := by decide +kernel
  have hend := loadSerial_line (by decide +kernel) (by decide) hdecode flash 0
    [] st'
  rw [if_pos (by decide), List.append_nil, ← endLine_eq] at hend
  refine ⟨0, (st'.endAddr + 2 ^ 32 - st'.startAddr + 1) % 2 ^ 32, st'.mem,
    ?_, ?_, ?_⟩
  · rw [saveSerial_eq mem count haddress, List.flatten_cons,
      loadSerial_header, List.flatten_append, List.flatten_singleton, hload,
      hend]
  · intro j hj
    rw [hmem, withRange, if_pos (by omega)]
  · intro k hk
    rw [hmem, withRange, if_neg]
    · rfl
    · rintro ⟨hk32, hlt⟩
      exact hk _ hlt (by omega)

/-- A board with one sector of flash, which is protected. -/
def protectedBoard : FlashDriver where
  flashInfo := [⟨0x1000, 1, 1, fun _ => 0x1000, fun _ => 1⟩]
  writeBuff mem _ _ := (0, mem)

/-- A range of twenty bytes that wraps around the top of the address space, off
the flash, is loaded into cleared memory. -/
theorem loadSerial_saveSerial_wrapped :
    LinesAccepted (saveSerial (fun k => UInt8.ofNat k) 0xFFFFFFF8 20) ∧
      LoadsBack protectedBoard (fun k => UInt8.ofNat k) (fun _ => 0)
        0xFFFFFFF8 20 :=
  loadSerial_saveSerial protectedBoard (fun k => UInt8.ofNat k) (fun _ => 0)
    (by decide) (by decide) (by unfold OutsideBanks; decide +kernel)

/-- A byte of the protected sector does not come back: `flash_write` refuses the
record, which ends the download. -/
theorem protectedBoard_not_loadsBack :
    ¬ LoadsBack protectedBoard (fun _ => 0x5A) (fun _ => 0xFF) 0x1000 1 := by
  have hrefused : (LoadState.init fun _ => 0xFF).storeData protectedBoard
      0x1000 ⟨.data4, (1 : ℕ), 0x1000, [0x5A]⟩ =
        .error (.aborted fun _ => 0xFF) := rfl
  have hranges : recordRanges 0x1000 1 = [(0x1000, 1)] := by
    rw [recordRanges_of_pos (by decide)]
    exact congrArg _ (recordRanges_zero _)
  rintro ⟨addr, size, m', hload, -⟩
  rw [saveSerial_eq _ _ (by decide), List.flatten_cons, loadSerial_header,
    hranges, List.flatten_append, List.map_singleton, List.flatten_singleton,
    loadSerial_rangeLine _ _ (by decide) (by decide)] at hload
  exact absurd hload (by
    rw [show (Memory.wrap fun _ => (0x5A : UInt8)).read 0x1000 1 = [0x5A] from rfl,
      hrefused]
    simp)

end TateFirmware.Serial
