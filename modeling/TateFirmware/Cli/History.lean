import Mathlib.Data.List.GetD
import TateFirmware.LibGeneric.CString
import TateFirmware.Support.Patch

/-!
# The history of the command line

`common/main.c` keeps the last command lines in a ring of `HIST_MAX` slots of
`HIST_SIZE` bytes.  The slots lie one behind the other in `hist_lines`, and
`hist_list[i]` points to slot `i`.  A line that fills its slot goes on into the
next one.

`hist_cur` is the position of the reader.  It is fresh where it stands at the slot
to be written next.
-/

namespace TateFirmware.Cli

open LibGeneric Support

def maxCmdbufSize : ℕ := 256

def histSlots : ℕ := 20

def histSize : ℕ := maxCmdbufSize

/-- The ring; `hist_lines` is memory from the first slot on. -/
structure History where
  histLines : List UInt8
  histMax : ℕ
  histAddIdx : ℕ
  histCur : ℤ
  histNum : ℕ
deriving DecidableEq

/-- `hist_list[i]`, as the place in `hist_lines` it points to. -/
def histList (i : ℕ) : ℕ := histSize * i

/-- The line at `hist_list[i]`. -/
def History.lineAt (h : History) (i : ℕ) : List UInt8 :=
  cstr (h.histLines.drop (histList i))

/-- `hist_list[i][0] = '\0'` for the first `n` slots. -/
def emptySlots (n : ℕ) (lines : List UInt8) : List UInt8 :=
  (List.range n).foldl (fun lines i => patch lines (histList i) [0]) lines

def histInit (h : History) : History where
  histLines := emptySlots histSlots h.histLines
  histMax := 0
  histAddIdx := 0
  histCur := -1
  histNum := 0

/-- `if (++hist_add_idx >= HIST_MAX) hist_add_idx = 0`. -/
def nextAddIdx (histAddIdx : ℕ) : ℕ :=
  if histAddIdx + 1 ≥ histSlots then 0 else histAddIdx + 1

def creadAddToHist (line : List UInt8) (h : History) : History where
  histLines := patch h.histLines (histList h.histAddIdx) (cstr line ++ [0])
  histAddIdx := nextAddIdx h.histAddIdx
  histMax :=
    if nextAddIdx h.histAddIdx > h.histMax then nextAddIdx h.histAddIdx
    else h.histMax
  histCur := h.histCur
  histNum := (h.histNum + 1) % 2 ^ 32

/-- `if (--hist_cur < 0) hist_cur = hist_max`. -/
def prevCur (histCur : ℤ) (histMax : ℕ) : ℤ :=
  if histCur - 1 < 0 then histMax else histCur - 1

/-- `if (++hist_cur > hist_max) hist_cur = 0`. -/
def nextCur (histCur : ℤ) (histMax : ℕ) : ℤ :=
  if histCur + 1 > histMax then 0 else histCur + 1

/-- The line `hist_prev` returns, `none` for `NULL`. -/
def histPrev (h : History) : Option (List UInt8) × History :=
  if h.histCur < 0 then (none, h)
  else
    let cur := prevCur h.histCur h.histMax
    if cur = h.histAddIdx then (none, h)
    else (some (h.lineAt cur.toNat), { h with histCur := cur })

/-- The line `hist_next` returns, `none` for `NULL`. -/
def histNext (h : History) : Option (List UInt8) × History :=
  if h.histCur < 0 then (none, h)
  else if h.histCur = h.histAddIdx then (none, h)
  else
    let cur := nextCur h.histCur h.histMax
    let h := { h with histCur := cur }
    if cur = h.histAddIdx then (some [], h)
    else (some (h.lineAt cur.toNat), h)

/-- `hist_cur = hist_add_idx`, what `cread_line` does at its end. -/
def History.fresh (h : History) : History := { h with histCur := h.histAddIdx }

/-! ## Slots -/

/-- The counters are indices of slots and the slots lie in memory. -/
structure History.Valid (h : History) : Prop where
  size : histList histSlots ≤ h.histLines.length
  max_lt : h.histMax < histSlots
  add_lt : h.histAddIdx < histSlots
  cur_lt : h.histCur < histSlots

/-- Every line ends in its slot, with the NUL byte behind it. -/
def History.SlotsFit (h : History) : Prop :=
  ∀ i < histSlots, (h.lineAt i).length < histSize

instance (h : History) : Decidable h.SlotsFit := Nat.decidableBallLT _ _

theorem nextAddIdx_lt (i : ℕ) : nextAddIdx i < histSlots := by
  unfold nextAddIdx histSlots
  split <;> omega

theorem histList_succ (i : ℕ) : histList (i + 1) = histList i + histSize := by
  rw [histList, histList, Nat.mul_succ]

theorem histList_le {i j : ℕ} (h : i ≤ j) : histList i ≤ histList j :=
  Nat.mul_le_mul_left _ h

/-- A string is in the bytes up to its end. -/
theorem cstr_eq_of_take_eq {buf buf' : List UInt8} {n : ℕ}
    (hlen : (cstr buf).length < n) (h : buf'.take n = buf.take n) :
    cstr buf' = cstr buf := by
  have htake : ∀ l : List UInt8, cstr (l.take n) = (cstr l).take n := by
    intro l
    exact List.take_takeWhile.symm
  have heq : (cstr buf').take n = cstr buf := by
    rw [← htake, h, htake]
    exact List.take_of_length_le hlen.le
  rw [← heq] at hlen ⊢
  rw [List.length_take] at hlen
  exact (List.take_of_length_le (by omega)).symm

/-- A string that ends in front of a write. -/
theorem cstr_drop_patch {buf src : List UInt8} {p q n : ℕ}
    (hp : p ≤ buf.length) (hq : q + n ≤ p) (hlen : (cstr (buf.drop q)).length < n) :
    cstr ((patch buf p src).drop q) = cstr (buf.drop q) := by
  apply cstr_eq_of_take_eq hlen
  rw [List.take_drop, List.take_drop, take_patch hq hp]

namespace History

variable {h : History}

theorem Valid.slot_le (hv : h.Valid) {i : ℕ} (hi : i < histSlots) :
    histList i + histSize ≤ h.histLines.length := by
  rw [← histList_succ]
  exact (histList_le hi).trans hv.size

theorem Valid.start_le (hv : h.Valid) {i : ℕ} (hi : i < histSlots) :
    histList i ≤ h.histLines.length :=
  (Nat.le_add_right _ _).trans (hv.slot_le hi)

/-- The line just added. -/
theorem lineAt_add_self (hv : h.Valid) (line : List UInt8) :
    (creadAddToHist line h).lineAt h.histAddIdx = cstr line := by
  have hdrop : (creadAddToHist line h).histLines.drop (histList h.histAddIdx) =
      cstr line ++ [0] ++ h.histLines.drop (histList h.histAddIdx +
        (cstr line ++ [0]).length) :=
    drop_patch (hv.start_le hv.add_lt)
  rw [lineAt, hdrop, List.append_assoc]
  rw [List.singleton_append, cstr_append_nul, cstr_of_notMem (zero_notMem_cstr line)]

/-- A line that fits its slot leaves the other slots alone. -/
theorem lineAt_add_of_ne (hv : h.Valid) (hfit : h.SlotsFit) {line : List UInt8}
    (hline : (cstr line).length < histSize) {i : ℕ} (hi : i < histSlots)
    (hne : i ≠ h.histAddIdx) :
    (creadAddToHist line h).lineAt i = h.lineAt i := by
  have hstart := hv.start_le hv.add_lt
  rcases Nat.lt_or_gt_of_ne hne with hlt | hgt
  · apply cstr_drop_patch hstart _ (hfit i hi)
    rw [← histList_succ]
    exact histList_le hlt
  · have hle : histList h.histAddIdx + (cstr line ++ [0]).length ≤
        histList i := by
      have hslot := histList_le hgt
      rw [Nat.succ_eq_add_one, histList_succ] at hslot
      rw [List.length_append, List.length_singleton]
      omega
    exact congrArg cstr (drop_patch_of_le hstart hle)

theorem Valid.add (hv : h.Valid) (line : List UInt8) :
    (creadAddToHist line h).Valid := by
  have hadd := nextAddIdx_lt h.histAddIdx
  refine ⟨hv.size.trans ?_, ?_, hadd, hv.cur_lt⟩
  · rw [creadAddToHist, patch_length (hv.start_le hv.add_lt)]
    exact le_max_left _ _
  · rw [creadAddToHist]
    split
    · exact hadd
    · exact hv.max_lt

theorem SlotsFit.add (hv : h.Valid) (hfit : h.SlotsFit) {line : List UInt8}
    (hline : (cstr line).length < histSize) :
    (creadAddToHist line h).SlotsFit := by
  intro i hi
  by_cases hne : i = h.histAddIdx
  · rw [hne, lineAt_add_self hv]
    exact hline
  · rw [lineAt_add_of_ne hv hfit hline hi hne]
    exact hfit i hi

theorem Valid.fresh (hv : h.Valid) : h.fresh.Valid :=
  ⟨hv.size, hv.max_lt, hv.add_lt, Int.ofNat_lt.mpr hv.add_lt⟩

/-- The reader put on a slot. -/
def moveTo (h : History) (cur : ℕ) : History := { h with histCur := cur }

theorem moveTo_histCur (cur : ℕ) : (h.moveTo cur).histCur = cur := rfl

theorem moveTo_histMax (cur : ℕ) : (h.moveTo cur).histMax = h.histMax := rfl

theorem moveTo_histAddIdx (cur : ℕ) :
    (h.moveTo cur).histAddIdx = h.histAddIdx := rfl

theorem Valid.moveTo (hv : h.Valid) {cur : ℕ} (hcur : cur < histSlots) :
    (h.moveTo cur).Valid :=
  ⟨hv.size, hv.max_lt, hv.add_lt, Int.ofNat_lt.mpr hcur⟩

/-- `hist_prev` returns no line and does nothing, or it moves to a slot and returns
its line. -/
theorem histPrev_cases (hv : h.Valid) :
    histPrev h = (none, h) ∨
      ∃ cur < histSlots, histPrev h = (some (h.lineAt cur), h.moveTo cur) := by
  have hmax := hv.max_lt
  have hlt := hv.cur_lt
  by_cases hneg : h.histCur < 0
  · exact Or.inl (if_pos hneg)
  have hcur : ∃ cur < histSlots, prevCur h.histCur h.histMax = (cur : ℕ) := by
    unfold prevCur
    split
    · exact ⟨h.histMax, hmax, rfl⟩
    · exact ⟨(h.histCur - 1).toNat, by omega, by omega⟩
  obtain ⟨cur, hcurlt, hcur⟩ := hcur
  rw [histPrev, if_neg hneg, hcur]
  dsimp only
  split
  · exact Or.inl rfl
  · exact Or.inr ⟨cur, hcurlt, rfl⟩

/-- `hist_next` returns no line and does nothing, or it moves to a slot and returns
its line, the empty line at the fresh position. -/
theorem histNext_cases (hv : h.Valid) :
    histNext h = (none, h) ∨
      ∃ cur < histSlots, ∃ l, histNext h = (some l, h.moveTo cur) ∧
        (l = [] ∨ l = h.lineAt cur) := by
  have hmax := hv.max_lt
  by_cases hneg : h.histCur < 0
  · exact Or.inl (if_pos hneg)
  by_cases hfresh : h.histCur = h.histAddIdx
  · exact Or.inl (by rw [histNext, if_neg hneg, if_pos hfresh])
  have hcur : ∃ cur < histSlots, nextCur h.histCur h.histMax = (cur : ℕ) := by
    unfold nextCur
    split
    · exact ⟨0, by decide, rfl⟩
    · exact ⟨(h.histCur + 1).toNat, by omega, by omega⟩
  obtain ⟨cur, hcurlt, hcur⟩ := hcur
  refine Or.inr ⟨cur, hcurlt, ?_⟩
  rw [histNext, if_neg hneg, if_neg hfresh, hcur]
  dsimp only
  split
  · exact ⟨_, rfl, Or.inl rfl⟩
  · exact ⟨_, rfl, Or.inr rfl⟩

/-- Both functions leave the slots alone and return a line that fits a slot. -/
theorem prev_keeps (hv : h.Valid) (hfit : h.SlotsFit) :
    (histPrev h).2.Valid ∧ (histPrev h).2.SlotsFit ∧
      ∀ l, (histPrev h).1 = some l → l.length < histSize := by
  rcases histPrev_cases hv with heq | ⟨cur, hcur, heq⟩
  · rw [heq]
    exact ⟨hv, hfit, by simp⟩
  · rw [heq]
    refine ⟨hv.moveTo hcur, hfit, ?_⟩
    intro l hl
    rw [← Option.some.inj hl]
    exact hfit cur hcur

theorem next_keeps (hv : h.Valid) (hfit : h.SlotsFit) :
    (histNext h).2.Valid ∧ (histNext h).2.SlotsFit ∧
      ∀ l, (histNext h).1 = some l → l.length < histSize := by
  rcases histNext_cases hv with heq | ⟨cur, hcur, l, heq, hl⟩
  · rw [heq]
    exact ⟨hv, hfit, by simp⟩
  · rw [heq]
    refine ⟨hv.moveTo hcur, hfit, ?_⟩
    intro l' hl'
    rw [← Option.some.inj hl']
    rcases hl with rfl | rfl
    · decide
    · exact hfit cur hcur

end History

theorem zero_notMem_histPrev {h : History} {l : List UInt8}
    (hl : (histPrev h).1 = some l) : (0 : UInt8) ∉ l := by
  unfold histPrev at hl
  dsimp only at hl
  split_ifs at hl
  rw [← Option.some.inj hl]
  exact zero_notMem_cstr _

theorem zero_notMem_histNext {h : History} {l : List UInt8}
    (hl : (histNext h).1 = some l) : (0 : UInt8) ∉ l := by
  unfold histNext at hl
  dsimp only at hl
  split_ifs at hl
  · rw [← Option.some.inj hl]
    exact List.not_mem_nil
  · rw [← Option.some.inj hl]
    exact zero_notMem_cstr _

/-! ## An empty ring -/

theorem emptySlots_succ (n : ℕ) (lines : List UInt8) :
    emptySlots (n + 1) lines = patch (emptySlots n lines) (histList n) [0] := by
  rw [emptySlots, List.range_succ, List.foldl_append]
  rfl

theorem emptySlots_spec {n : ℕ} {lines : List UInt8}
    (hsize : histList n ≤ lines.length) :
    (emptySlots n lines).length = lines.length ∧
      ∀ i < n, cstr ((emptySlots n lines).drop (histList i)) = [] := by
  induction n with
  | zero => exact ⟨rfl, fun i hi => absurd hi (Nat.not_lt_zero i)⟩
  | succ n ih =>
      rw [histList_succ] at hsize
      unfold histSize maxCmdbufSize at hsize
      obtain ⟨hlen, hempty⟩ := ih (by omega)
      have hstart : histList n ≤ (emptySlots n lines).length := by omega
      rw [emptySlots_succ]
      constructor
      · rw [patch_length_of_le, hlen]
        rw [hlen, List.length_singleton]
        omega
      · intro i hi
        rcases Nat.lt_succ_iff_lt_or_eq.mp hi with hlt | rfl
        · have hslot := histList_le hlt
          rw [Nat.succ_eq_add_one, histList_succ] at hslot
          rw [cstr_drop_patch hstart hslot]
          · exact hempty i hlt
          · rw [hempty i hlt]
            decide
        · rw [drop_patch hstart]
          rfl

theorem histInit_lineAt {h : History} (hsize : histList histSlots ≤ h.histLines.length)
    {i : ℕ} (hi : i < histSlots) : (histInit h).lineAt i = [] :=
  (emptySlots_spec hsize).2 i hi

theorem histInit_valid {h : History} (hsize : histList histSlots ≤ h.histLines.length) :
    (histInit h).Valid := by
  have hsize' := hsize.trans (emptySlots_spec hsize).1.ge
  exact ⟨hsize', Nat.zero_lt_succ _, Nat.zero_lt_succ _, (by decide : (-1 : ℤ) < 20)⟩

theorem histInit_slotsFit {h : History}
    (hsize : histList histSlots ≤ h.histLines.length) : (histInit h).SlotsFit := by
  intro i hi
  rw [histInit_lineAt hsize hi]
  decide

/-! ## Recalling lines -/

/-- The ring after `hist_init` and a sequence of added lines. -/
def addedLines (h : History) (lines : List (List UInt8)) : History :=
  lines.foldl (fun h line => creadAddToHist line h) (histInit h)

/-- `k` calls of `hist_prev`: what they return, and the ring behind them. -/
def prevs (h : History) : ℕ → List (Option (List UInt8)) × History
  | 0 => ([], h)
  | k + 1 =>
      ((prevs h k).1 ++ [(histPrev (prevs h k).2).1], (histPrev (prevs h k).2).2)

/-- From the ring `h`, `hist_prev` returns the lines from the last one back, as far as
the slots reach, and `hist_next` goes back to where `hist_prev` was called and returns
the line there. -/
structure Recalls (lines : List (List UInt8)) (h : History) : Prop where
  prev : ∀ k ≤ min lines.length (histSlots - 1),
    (prevs h k).1 = (lines.reverse.take k).map some
  next : ∀ k < min lines.length (histSlots - 1),
    histNext (histPrev (prevs h k).2).2 =
      (some (([] :: lines.reverse).getD k []), (prevs h k).2)

/-- The ring holds the last lines that were added: line `i` in slot `i % HIST_MAX`. -/
structure HoldsLast (lines : List (List UInt8)) (h : History) : Prop where
  valid : h.Valid
  fits : h.SlotsFit
  add_idx : h.histAddIdx = lines.length % histSlots
  max : h.histMax = min lines.length (histSlots - 1)
  slot : ∀ i < lines.length, lines.length ≤ i + histSlots →
    h.lineAt (i % histSlots) = cstr (lines.getD i [])

theorem holdsLast_nil {h : History} (hsize : histList histSlots ≤ h.histLines.length) :
    HoldsLast [] (histInit h) where
  valid := histInit_valid hsize
  fits := histInit_slotsFit hsize
  add_idx := rfl
  max := rfl
  slot := fun i hi => absurd hi (Nat.not_lt_zero i)

theorem HoldsLast.add {lines : List (List UInt8)} {h : History} (hh : HoldsLast lines h)
    {line : List UInt8} (hline : (cstr line).length < histSize) :
    HoldsLast (lines ++ [line]) (creadAddToHist line h) := by
  have hadd := hh.add_idx
  have hmax := hh.max
  unfold histSlots at hadd hmax
  have hnext : nextAddIdx h.histAddIdx = (lines.length + 1) % 20 := by
    unfold nextAddIdx histSlots
    split <;> omega
  refine ⟨hh.valid.add line, hh.fits.add hh.valid hline, ?_, ?_, ?_⟩
  · rw [List.length_append, List.length_singleton]
    exact hnext
  · rw [List.length_append, List.length_singleton, creadAddToHist, hnext]
    unfold histSlots
    dsimp only
    split <;> omega
  · intro i hi hlast
    rw [List.length_append, List.length_singleton] at hi hlast
    by_cases hself : i = lines.length
    · rw [hself, ← hh.add_idx, History.lineAt_add_self hh.valid,
        List.getD_append_right _ _ _ _ le_rfl, Nat.sub_self]
      rfl
    · have hne : i % histSlots ≠ h.histAddIdx := by
        unfold histSlots at hlast ⊢
        omega
      rw [History.lineAt_add_of_ne hh.valid hh.fits hline (Nat.mod_lt _ (by decide)) hne,
        hh.slot i (by omega) (by omega), List.getD_append _ _ _ _ (by omega)]

theorem holdsLast_addedLines {h : History}
    (hsize : histList histSlots ≤ h.histLines.length) {lines : List (List UInt8)}
    (hlines : ∀ line ∈ lines, (cstr line).length < histSize) :
    HoldsLast lines (addedLines h lines) := by
  induction lines using List.reverseRecOn with
  | nil => exact holdsLast_nil hsize
  | append_singleton lines line ih =>
      have hlast := ih fun l hl => hlines l (List.mem_append_left _ hl)
      have hline := hlines line (by simp)
      rw [addedLines, List.foldl_append]
      exact hlast.add hline

namespace HoldsLast

variable {lines : List (List UInt8)} {h : History}

theorem getD_reverse_cstr {k : ℕ} (hk : k < lines.length) :
    (lines.map cstr).reverse.getD k [] =
      cstr (lines.getD (lines.length - (k + 1)) []) := by
  have hk' : lines.length - (k + 1) < lines.length := by omega
  rw [List.getD_eq_getElem _ _ (by simpa using hk), List.getElem_reverse,
    List.getElem_map, List.getD_eq_getElem _ _ hk']
  congr 2
  rw [List.length_map]
  omega

theorem fresh_eq (hh : HoldsLast lines h) :
    h.fresh = h.moveTo (lines.length % histSlots) := by
  rw [← hh.add_idx]
  rfl

/-- One step back from the place of the `k`-th latest line. -/
theorem histPrev_moveTo (hh : HoldsLast lines h) {k : ℕ}
    (hk : k < min lines.length (histSlots - 1)) :
    histPrev (h.moveTo ((lines.length - k) % histSlots)) =
      (some (cstr (lines.getD (lines.length - (k + 1)) [])),
        h.moveTo ((lines.length - (k + 1)) % histSlots)) := by
  have hline := hh.slot (lines.length - (k + 1)) (by omega) (by omega)
  have hadd := hh.add_idx
  have hmax := hh.max
  unfold histSlots at *
  have hback : prevCur ((lines.length - k) % 20 : ℕ) h.histMax =
      ((lines.length - (k + 1)) % 20 : ℕ) := by
    unfold prevCur
    split <;> omega
  have hne : ¬ (((lines.length - (k + 1)) % 20 : ℕ) : ℤ) = h.histAddIdx := by
    omega
  have hcur : ¬ (((lines.length - k) % 20 : ℕ) : ℤ) < 0 :=
    not_lt.mpr (Int.natCast_nonneg _)
  rw [histPrev, History.moveTo_histCur, History.moveTo_histMax,
    History.moveTo_histAddIdx, hback, if_neg hcur]
  dsimp only
  rw [if_neg hne, ← hline]
  rfl

/-- One step forth to the place of the `k`-th latest line. -/
theorem histNext_moveTo (hh : HoldsLast lines h) {k : ℕ}
    (hk : k < min lines.length (histSlots - 1)) :
    histNext (h.moveTo ((lines.length - (k + 1)) % histSlots)) =
      (some (([] :: (lines.map cstr).reverse).getD k []),
        h.moveTo ((lines.length - k) % histSlots)) := by
  have hadd := hh.add_idx
  have hmax := hh.max
  have hslot := hh.slot
  unfold histSlots at *
  have hne : ¬ (((lines.length - (k + 1)) % 20 : ℕ) : ℤ) = h.histAddIdx := by
    omega
  have hforth : nextCur ((lines.length - (k + 1)) % 20 : ℕ) h.histMax =
      ((lines.length - k) % 20 : ℕ) := by
    unfold nextCur
    split <;> omega
  have hcur : ¬ (((lines.length - (k + 1)) % 20 : ℕ) : ℤ) < 0 :=
    not_lt.mpr (Int.natCast_nonneg _)
  rw [histNext, History.moveTo_histCur, History.moveTo_histMax,
    History.moveTo_histAddIdx, hforth, if_neg hcur, if_neg hne]
  dsimp only
  by_cases hk0 : k = 0
  · subst hk0
    rw [if_pos (by omega)]
    rfl
  · obtain ⟨j, rfl⟩ := Nat.exists_eq_succ_of_ne_zero hk0
    have hline := hslot (lines.length - (j + 1)) (by omega) (by omega)
    rw [if_neg (by omega), List.getD_cons_succ,
      getD_reverse_cstr (by omega), ← hline]
    rfl

theorem prevs_fresh (hh : HoldsLast lines h) {k : ℕ}
    (hk : k ≤ min lines.length (histSlots - 1)) :
    prevs h.fresh k = (((lines.map cstr).reverse.take k).map some,
      h.moveTo ((lines.length - k) % histSlots)) := by
  induction k with
  | zero =>
      rw [prevs, hh.fresh_eq]
      rfl
  | succ k ih =>
      have hlen : k < (lines.map cstr).reverse.length := by
        rw [List.length_reverse, List.length_map]
        omega
      rw [prevs, ih (by omega), hh.histPrev_moveTo hk, List.take_add_one,
        List.getElem?_eq_getElem hlen, ← getD_reverse_cstr (by omega),
        List.getD_eq_getElem _ _ hlen, Option.toList_some, List.map_append,
        List.map_singleton]

theorem recalls (hh : HoldsLast lines h) : Recalls (lines.map cstr) h.fresh := by
  constructor
  · intro k hk
    rw [List.length_map] at hk
    rw [hh.prevs_fresh hk]
  · intro k hk
    rw [List.length_map] at hk
    rw [hh.prevs_fresh hk.le, hh.histPrev_moveTo hk]
    exact hh.histNext_moveTo hk

end HoldsLast

/-- In every run that adds lines of at most `HIST_SIZE - 1` characters, the ring
recalls the last lines, however often it has wrapped. -/
theorem hist_recalls_of_fit (h : History)
    (hsize : histList histSlots ≤ h.histLines.length) (lines : List (List UInt8))
    (hlines : ∀ line ∈ lines, (cstr line).length < histSize) :
    Recalls (lines.map cstr) (addedLines h lines).fresh :=
  (holdsLast_addedLines hsize hlines).recalls

/-- The ring before anything has been written to it. -/
def zeroRing : History where
  histLines := List.replicate (histList histSlots) 0
  histMax := 0
  histAddIdx := 0
  histCur := -1
  histNum := 0

theorem hist_recalls_of_fit_ls_reset :
    Recalls ([text "ls", text "reset"].map cstr)
      (addedLines zeroRing [text "ls", text "reset"]).fresh :=
  hist_recalls_of_fit zeroRing (by decide +kernel) [text "ls", text "reset"]
    (by decide)

/-- A line of `HIST_SIZE` characters runs into the line added behind it. -/
theorem longLine_not_recalled :
    ¬ Recalls ([List.replicate histSize (ch 'a'), text "b"].map cstr)
      (addedLines zeroRing [List.replicate histSize (ch 'a'), text "b"]).fresh := by
  intro hrecalls
  have hprev := hrecalls.prev 2 (by decide)
  revert hprev
  decide +kernel

end TateFirmware.Cli
