import TateFirmware.Idme.UpdateVar

/-!
# Board id and serial number

`idmeGetBoardId` and `idmeGetBoardSerial` fetch a variable into a buffer with room
for its 16 bytes and a NUL, and fall back to a row of zeros.  The buffers are
tracked memories, since the fallback stores a NUL behind their end.
-/

namespace TateFirmware.Idme

open LibGeneric Support

/-! ## The functions -/

/-- The loop of `is_valid_board_info`, with `n` characters to go.  On ARM a plain
`char` is unsigned. -/
def isValidFrom (info : Memory UInt8) : ℕ → ℕ → Bool
  | 0, _ => true
  | n + 1, i =>
      if info i = 0 then true
      else if info i < ch '0' ∧ info i > ch '9' ∧ info i < ch 'A' ∧
          info i > ch 'Z' then false
      else isValidFrom info n (i + 1)

/-- `is_valid_board_info`. -/
def isValidBoardInfo (info : Memory UInt8) (maxLen : ℕ) : Bool :=
  isValidFrom info maxLen 0

/-- `idme_get_var` with the buffer of its caller: whether it returns `0`. -/
def getVarInto (name : List UInt8) (buf : TrackedMemory UInt8) (buflen : ℕ)
    (st : IdmeState) : Bool × TrackedMemory UInt8 × IdmeState :=
  let buf := buf.store 0 0
  match idmeGetVar name buflen st with
  | (.value bytes, st) =>
      (true, (buf.copyIn 0 bytes).store bytes.length 0, st)
  | (get, st) => (get.ret = 0, buf, st)

/-- `memset(info, '0', sizeof(info) - 1)` and the store behind it. -/
def infoFallback (size : ℕ) (info : TrackedMemory UInt8) : TrackedMemory UInt8 :=
  (info.copyIn 0 (List.replicate (size - 1) (ch '0'))).store size 0

/-- The body of the two functions, for a static buffer with room for `maxLen`
characters and a NUL. -/
def getBoardInfo (name : List UInt8) (maxLen : ℕ) (old : Memory UInt8)
    (st : IdmeState) : TrackedMemory UInt8 × IdmeState :=
  let size := maxLen + 1
  let info := (⟨old, 0⟩ : TrackedMemory UInt8).copyIn 0 (List.replicate size 0)
  let (ok, info, st) := getVarInto name info size st
  let info := if ok then info else infoFallback size info
  let info :=
    if isValidBoardInfo info.cell size then info else infoFallback size info
  (info.store maxLen 0, st)

/-- `IDME_MAX_BOARD_ID_LEN`. -/
def idmeMaxBoardIdLen : ℕ := 16

/-- `IDME_MAX_BOARD_SERIAL_LEN`. -/
def idmeMaxBoardSerialLen : ℕ := 16

/-- `idme_get_board_id`. -/
def idmeGetBoardId (old : Memory UInt8) (st : IdmeState) :
    TrackedMemory UInt8 × IdmeState :=
  getBoardInfo (text "boardid") idmeMaxBoardIdLen old st

/-- `idme_get_board_serial`. -/
def idmeGetBoardSerial (old : Memory UInt8) (st : IdmeState) :
    TrackedMemory UInt8 × IdmeState :=
  getBoardInfo (text "serial") idmeMaxBoardSerialLen old st

/-! ## What they are for -/

/-- A digit or a capital letter. -/
def IsBoardChar (c : UInt8) : Prop :=
  (ch '0' ≤ c ∧ c ≤ ch '9') ∨ (ch 'A' ≤ c ∧ c ≤ ch 'Z')

instance (c : UInt8) : Decidable (IsBoardChar c) :=
  inferInstanceAs (Decidable (_ ∨ _))

/-- The string in the first `size` bytes. -/
def stringIn (m : Memory UInt8) (size : ℕ) : List UInt8 := cstr (m.read 0 size)

/-- What is stored of a variable. -/
def NvramT.stored (nv : NvramT) (disk : Disk) : List UInt8 :=
  disk.boot.read (idmeBaseAddr + nv.offset) nv.size

/-- The string returned is terminated inside its buffer, behind whose end nothing is
stored; it consists of board characters if it is accepted, and is the fallback if
the stored string is not accepted. -/
structure InfoContract (nv : NvramT) (maxLen : ℕ) (disk : Disk)
    (info : TrackedMemory UInt8) : Prop where
  inside : info.high ≤ maxLen + 1
  terminated : ∃ i < maxLen + 1, info.cell i = 0
  accepted : isValidBoardInfo info.cell (maxLen + 1) = true →
    ∀ c ∈ stringIn info.cell (maxLen + 1), IsBoardChar c
  rejected :
    isValidBoardInfo (Memory.ofList 0 (nv.stored disk)) (maxLen + 1) = false →
      stringIn info.cell (maxLen + 1) = List.replicate maxLen (ch '0')

/-- The switches of a fetch are accepted, and its read returns `0`, which the callers
take for success, or leaves a string of board characters in `gblock_buff`. -/
def FetchesInfo (nv : NvramT) (st : IdmeState) : Prop :=
  ((st.report 0).accepted = true ∧ (st.report 2).accepted = true) ∧
    ((st.report 1).readStatus = 0 ∨ (st.report 1).readStatus = 1 ∧
      ∀ c ∈ cstr ((st.fetched nv.block).read nv.inBlock nv.size), IsBoardChar c)

/-! ## The string returned -/

/-- No character satisfies the range condition of the check. -/
theorem isValidFrom_eq_true (info : Memory UInt8) (n i : ℕ) :
    isValidFrom info n i = true := by
  induction n generalizing i with
  | zero => rfl
  | succ n ih =>
      rw [isValidFrom]
      split
      · rfl
      · rw [if_neg, ih]
        rintro ⟨hlow, hhigh, -, -⟩
        have hlt := UInt8.lt_iff_toNat_lt.mp hlow
        have hgt := UInt8.lt_iff_toNat_lt.mp hhigh
        have hdigits : (ch '0').toNat < (ch '9').toNat := by decide
        omega

theorem isValidBoardInfo_eq_true (info : Memory UInt8) (maxLen : ℕ) :
    isValidBoardInfo info maxLen = true :=
  isValidFrom_eq_true info maxLen 0

theorem stringIn_append {m : Memory UInt8} {l : List UInt8}
    (h : Memory.Holds m 0 (l ++ [0])) : stringIn m (l.length + 1) = cstr l := by
  have hread := h.read_eq
  rw [List.length_append, List.length_singleton] at hread
  rw [stringIn, hread, cstr_append_nul]

theorem stringIn_of_first {m : Memory UInt8} (h : m 0 = 0) (n : ℕ) :
    stringIn m (n + 1) = [] := by
  rw [stringIn, Memory.read, List.range_succ_eq_map, List.map_cons, Nat.zero_add, h]
  rfl

/-- The buffer in front of the fetch. -/
def clearedInfo (old : Memory UInt8) (size : ℕ) : TrackedMemory UInt8 :=
  ((⟨old, 0⟩ : TrackedMemory UInt8).copyIn 0 (List.replicate size 0)).store 0 0

theorem clearedInfo_high (old : Memory UInt8) (n : ℕ) :
    (clearedInfo old (n + 1)).high = n + 1 := by
  simp only [clearedInfo, TrackedMemory.store, TrackedMemory.copyIn,
    List.length_replicate]
  rw [if_neg (by simp)]
  omega

theorem getBoardInfo_of_value {name : List UInt8} {maxLen : ℕ} {old : Memory UInt8}
    {st : IdmeState} {bytes : List UInt8}
    (hget : (idmeGetVar name (maxLen + 1) st).1 = .value bytes) :
    (getBoardInfo name maxLen old st).1 =
      (((clearedInfo old (maxLen + 1)).copyIn 0 bytes).store bytes.length 0).store
        maxLen 0 := by
  have hpair : idmeGetVar name (maxLen + 1) st =
      (.value bytes, (idmeGetVar name (maxLen + 1) st).2) := Prod.ext hget rfl
  unfold getBoardInfo getVarInto
  dsimp only
  rw [hpair]
  dsimp only
  rw [if_pos rfl, isValidBoardInfo_eq_true, if_pos rfl]
  rfl

/-- A fetch that does not copy the variable. -/
theorem getBoardInfo_of_not_value {name : List UInt8} {maxLen : ℕ} {old : Memory UInt8}
    {st : IdmeState}
    (hget : ∀ bytes, (idmeGetVar name (maxLen + 1) st).1 ≠ .value bytes) :
    (getBoardInfo name maxLen old st).1 =
      (if (idmeGetVar name (maxLen + 1) st).1.ret = 0 then clearedInfo old (maxLen + 1)
      else infoFallback (maxLen + 1) (clearedInfo old (maxLen + 1))).store maxLen 0 := by
  cases hpair : idmeGetVar name (maxLen + 1) st with
  | mk get st' =>
      rw [hpair] at hget
      have hinto : getVarInto name
          ((⟨old, 0⟩ : TrackedMemory UInt8).copyIn 0 (List.replicate (maxLen + 1) 0))
          (maxLen + 1) st = (decide (get.ret = 0), clearedInfo old (maxLen + 1), st') := by
        unfold getVarInto
        dsimp only
        rw [hpair]
        cases get with
        | value bytes => exact absurd rfl (hget bytes)
        | error => rfl
        | failed status => rfl
        | tooSmall needed => rfl
      unfold getBoardInfo
      dsimp only
      rw [hinto]
      dsimp only
      rw [isValidBoardInfo_eq_true, if_pos rfl]
      simp only [decide_eq_true_eq]

/-- The stored bytes and a NUL fill the buffer where the fetch succeeds. -/
theorem holds_of_value {name : List UInt8} (old : Memory UInt8) {st : IdmeState}
    {bytes : List UInt8}
    (hget : (idmeGetVar name (bytes.length + 1) st).1 = .value bytes) :
    Memory.Holds (getBoardInfo name bytes.length old st).1.cell 0 (bytes ++ [0]) := by
  rw [getBoardInfo_of_value hget]
  simp only [TrackedMemory.store_cell, TrackedMemory.copyIn_cell]
  refine Memory.Holds.append ?_ ?_
  · refine (Memory.holds_copyIn (clearedInfo old (bytes.length + 1)).cell 0
      bytes).congr ?_
    intro k _ hk
    rw [Memory.store_of_ne _ (by omega), Memory.store_of_ne _ (by omega)]
  · rw [Memory.holds_singleton, Nat.zero_add, Memory.store_same]

theorem high_of_value {name : List UInt8} (old : Memory UInt8) {st : IdmeState}
    {bytes : List UInt8}
    (hget : (idmeGetVar name (bytes.length + 1) st).1 = .value bytes) :
    (getBoardInfo name bytes.length old st).1.high ≤ bytes.length + 1 := by
  rw [getBoardInfo_of_value hget]
  refine TrackedMemory.store_high_le _ (TrackedMemory.store_high_le _
    (TrackedMemory.copyIn_high_le ?_ ?_) ?_) ?_
  · exact (clearedInfo_high old _).le
  · omega
  · omega
  · omega

/-- The fallback stores a NUL behind the end of the buffer. -/
theorem high_of_ret {name : List UInt8} {maxLen : ℕ} (old : Memory UInt8)
    {st : IdmeState} (hret : (idmeGetVar name (maxLen + 1) st).1.ret ≠ 0) :
    maxLen + 1 < (getBoardInfo name maxLen old st).1.high := by
  have hget : ∀ bytes, (idmeGetVar name (maxLen + 1) st).1 ≠ .value bytes := by
    intro bytes hvalue
    rw [hvalue] at hret
    exact hret rfl
  rw [getBoardInfo_of_not_value hget, if_neg hret]
  simp only [infoFallback, TrackedMemory.store]
  omega

/-- A read that fails with `0` leaves the empty string. -/
theorem infoContract_of_failed_zero {nv : NvramT} (old : Memory UInt8) {st : IdmeState}
    (disk : Disk) (hget : (idmeGetVar nv.name (nv.size + 1) st).1 = .failed 0) :
    InfoContract nv nv.size disk (getBoardInfo nv.name nv.size old st).1 := by
  have hinfo : (getBoardInfo nv.name nv.size old st).1 =
      (clearedInfo old (nv.size + 1)).store nv.size 0 := by
    rw [getBoardInfo_of_not_value (by rw [hget]; simp), hget]
    rfl
  have hfirst : ((clearedInfo old (nv.size + 1)).store nv.size 0).cell 0 = 0 := by
    simp only [clearedInfo, TrackedMemory.store_cell]
    by_cases hzero : nv.size = 0
    · rw [hzero, Memory.store_same]
    · rw [Memory.store_of_ne _ (fun h => hzero h.symm), Memory.store_same]
  rw [hinfo]
  refine ⟨?_, ⟨0, Nat.succ_pos _, hfirst⟩, ?_, ?_⟩
  · exact TrackedMemory.store_high_le _ (clearedInfo_high old _).le (Nat.le_refl _)
  · intro _ c hc
    rw [stringIn_of_first hfirst] at hc
    cases hc
  · intro hfalse
    rw [isValidBoardInfo_eq_true] at hfalse
    exact absurd hfalse (by simp)

/-- A fetch that copies the variable keeps the contract exactly if what it copies is a
string of board characters. -/
theorem infoContract_of_value {nv : NvramT} (old : Memory UInt8) {st : IdmeState}
    (disk : Disk) {bytes : List UInt8} (hlen : bytes.length = nv.size)
    (hget : (idmeGetVar nv.name (nv.size + 1) st).1 = .value bytes) :
    InfoContract nv nv.size disk (getBoardInfo nv.name nv.size old st).1 ↔
      ∀ c ∈ cstr bytes, IsBoardChar c := by
  rw [← hlen] at hget
  have hholds := holds_of_value old hget
  have hstring := stringIn_append hholds
  have hhigh := high_of_value old hget
  rw [hlen] at hholds hstring hhigh
  constructor
  · intro hcontract
    rw [← hstring]
    exact hcontract.accepted (isValidBoardInfo_eq_true _ _)
  · intro hchars
    refine ⟨hhigh, ⟨nv.size, Nat.lt_succ_self _, ?_⟩, ?_, ?_⟩
    · have hlast := (Memory.holds_append.mp hholds).2
      rwa [Memory.holds_singleton, hlen, Nat.zero_add] at hlast
    · intro _
      rwa [hstring]
    · intro hfalse
      rw [isValidBoardInfo_eq_true] at hfalse
      exact absurd hfalse (by simp)

/-- The contract is kept exactly if the fetch goes well, or fails without telling. -/
theorem infoContract_iff (nv : NvramT) (hnv : nv ∈ nvramInfo) (old : Memory UInt8)
    (st : IdmeState) :
    InfoContract nv nv.size st.dev.disk (getBoardInfo nv.name nv.size old st).1 ↔
      FetchesInfo nv st := by
  have hget := (idmeGetVar_eq hnv (nv.size + 1) st).1
  rw [if_neg (Nat.lt_irrefl _)] at hget
  have hfails : (idmeGetVar nv.name (nv.size + 1) st).1.ret ≠ 0 →
      ¬ InfoContract nv nv.size st.dev.disk (getBoardInfo nv.name nv.size old st).1 := by
    intro hret hcontract
    have hhigh := high_of_ret old hret
    have hinside := hcontract.inside
    omega
  unfold FetchesInfo
  by_cases hswitch : (st.report 0).accepted = true ∧ (st.report 2).accepted = true
  · rw [if_neg (by simp [hswitch])] at hget
    by_cases hstatus : (st.report 1).readStatus = 1
    · rw [if_neg (not_not.mpr hstatus)] at hget
      rw [infoContract_of_value old _ (Memory.read_length _ _ _) hget]
      simp [hswitch, hstatus]
    · rw [if_pos hstatus] at hget
      by_cases hzero : (st.report 1).readStatus = 0
      · rw [hzero] at hget
        exact iff_of_true (infoContract_of_failed_zero old _ hget)
          ⟨hswitch, Or.inl hzero⟩
      · refine iff_of_false (hfails ?_) ?_
        · rw [hget]
          intro hret
          have hnat : ((st.report 1).readStatus.toNat : ℤ) = 0 := hret
          exact hzero (UInt8.toNat_inj.mp (by exact_mod_cast hnat))
        · rintro ⟨-, h | ⟨h, -⟩⟩
          · exact hzero h
          · exact hstatus h
  · have hrefused : (st.report 0).accepted = false ∨ (st.report 2).accepted = false := by
      rw [not_and_or] at hswitch
      simpa using hswitch
    rw [if_pos hrefused] at hget
    refine iff_of_false (hfails ?_) fun h => hswitch h.1
    rw [hget]
    decide

/-- `nvram_info` of the board id. -/
def boardidInfo : NvramT := ⟨text "boardid", 4, 16⟩

/-- `nvram_info` of the serial number. -/
def serialInfo : NvramT := ⟨text "serial", 20, 16⟩

/-- The two functions keep their contract exactly if the switches of their fetch are
accepted and what is fetched is a string of digits and capital letters, or the read
fails with `0`. -/
theorem idmeGetBoardInfo_iff (old : Memory UInt8) (st : IdmeState) :
    (InfoContract boardidInfo idmeMaxBoardIdLen st.dev.disk
        (idmeGetBoardId old st).1 ↔ FetchesInfo boardidInfo st) ∧
    (InfoContract serialInfo idmeMaxBoardSerialLen st.dev.disk
        (idmeGetBoardSerial old st).1 ↔ FetchesInfo serialInfo st) :=
  ⟨infoContract_iff boardidInfo (by decide) old st,
    infoContract_iff serialInfo (by decide) old st⟩

/-- A device that answers fetches what is stored. -/
theorem fetchesInfo_of_reports {nv : NvramT} (hin : nv.inBlock + nv.size ≤ mmcBlockSize)
    {st : IdmeState} (h : st.dev.reports = []) :
    FetchesInfo nv st ↔ ∀ c ∈ cstr (nv.stored st.dev.disk), IsBoardChar c := by
  have hstored : (st.fetched nv.block).read nv.inBlock nv.size =
      nv.stored st.dev.disk := by
    rw [fetched_of_reports h]
    apply Memory.read_congr
    intro k hk
    exact copyIn_block_read nv _ _ (by omega)
  have hzero : ¬ (1 : UInt8) = 0 := by decide
  have hone : Report.done.readStatus = 1 := by decide
  have haccepted : Report.done.accepted = true := by decide
  unfold FetchesInfo
  simp only [report_of_reports h, hstored, hzero, hone, haccepted, and_self, true_and,
    false_or]

/-- A device with the board id `tate` that fails no command. -/
def lowerCaseBoard : IdmeState where
  dev :=
    let m : Memory UInt8 := fun _ => 0
    ⟨⟨m, m.copyIn (idmeBaseAddr + boardidInfo.offset) (text "tate")⟩, .user, [], []⟩
  gblockBuff := fun _ => 0
  high := 0

/-- Lower-case letters are accepted and returned. -/
theorem lowerCaseBoard_not_infoContract :
    ¬ InfoContract boardidInfo idmeMaxBoardIdLen lowerCaseBoard.dev.disk
      (idmeGetBoardId (fun _ => 0) lowerCaseBoard).1 := by
  intro hcontract
  have hfetches := (infoContract_iff boardidInfo (by decide) _ _).mp hcontract
  rw [fetchesInfo_of_reports (by decide) rfl] at hfetches
  exact absurd hfetches (by decide)

end TateFirmware.Idme
