import TateFirmware.Mtd.Devices
import TateFirmware.LibGeneric.Decimal

/-!
# Generating `mtdparts`

`generate_mtdparts` of `common/cmd_jffs2.c`: it prints the devices piece by
piece, as long as a piece fits what is left of the buffer.  Each piece it
prints for a partition is read back by the function that reads that part of a
definition.
-/

namespace TateFirmware.Mtd

open LibGeneric

/-! ## The generator -/

/-- Print the pieces, if each fits what is left. -/
def putPieces : ℕ → List (List UInt8) → Option (List UInt8)
  | _, [] => some []
  | maxlen, s :: ss =>
      if maxlen < s.length then none
      else (putPieces (maxlen - s.length) ss).map fun t => s ++ t

/-- An offset is printed only where there is a gap between partitions. -/
def hasGap (prevPart : Option PartInfo) (part : PartInfo) : Bool :=
  match prevPart with
  | none => part.offset ≠ 0
  | some prev => (prev.offset + prev.size) % 2 ^ 32 ≠ part.offset

/-- What is printed for a partition. -/
def partPieces (prevPart : Option PartInfo) (part : PartInfo) (more : Bool) :
    List (List UInt8) :=
  [memsizeFormat part.size] ++
    (if hasGap prevPart part then [text "@" ++ memsizeFormat part.offset]
      else []) ++
    (if part.autoName then [] else [text "(" ++ part.name ++ text ")"]) ++
    (if part.maskFlags ≠ 0 then [text "ro"] else []) ++
    (if more then [text ","] else [])

/-- What is printed for the partitions of a device. -/
def partsPieces (numParts : ℕ) :
    Option PartInfo → ℕ → List PartInfo → List (List UInt8)
  | _, _, [] => []
  | prevPart, partCnt, part :: parts =>
      partPieces prevPart part (partCnt + 1 < numParts) ++
        partsPieces numParts (some part) (partCnt + 1) parts

/-- What is printed for the devices. -/
def devicesPieces : List MtdDevice → List (List UInt8)
  | [] => []
  | dev :: devs =>
      (dev.id.mtdId ++ text ":") :: partsPieces dev.numParts none 0 dev.parts ++
        (if devs ≠ [] then [text ";"] else []) ++ devicesPieces devs

/-- `generate_mtdparts` for a buffer of `buflen` bytes; `none` where it
fails. -/
def generateMtdparts (devices : List MtdDevice) (buflen : ℕ) :
    Option (List UInt8) :=
  if devices = [] then some []
  else
    (putPieces ((buflen + (2 ^ 32 - 1)) % 2 ^ 32) (devicesPieces devices)).map
      fun t => text "mtdparts=" ++ t

/-- What is printed is the pieces, one behind the other. -/
theorem putPieces_eq {maxlen : ℕ} {pieces : List (List UInt8)} {t : List UInt8}
    (h : putPieces maxlen pieces = some t) : t = pieces.flatten := by
  induction pieces generalizing maxlen t with
  | nil => exact (Option.some.inj h).symm
  | cons s ss ih =>
      rw [putPieces] at h
      split at h
      · exact absurd h (by simp)
      · obtain ⟨u, hu, rfl⟩ := Option.map_eq_some_iff.mp h
        rw [ih hu, List.flatten_cons]

/-! ## Reading back sizes -/

/-- A byte that is neither a digit nor a suffix of a size. -/
def EndsSize (rest : List UInt8) : Prop :=
  EndsNumber 10 rest ∧
    ∀ c ∈ [ch 'G', ch 'g', ch 'M', ch 'm', ch 'K', ch 'k'], peek rest ≠ c

theorem endsSize_cons {c : UInt8} (rest : List UInt8)
    (hc : c ∈ [ch '@', ch '(']) : EndsSize (c :: rest) := by
  have hall : ∀ c ∈ [ch '@', ch '('],
      ¬ (isxdigit c && digitValue c < 10) = true ∧
        ∀ e ∈ [ch 'G', ch 'g', ch 'M', ch 'm', ch 'K', ch 'k'], c ≠ e := by
    decide +kernel
  refine ⟨?_, (hall c hc).2⟩
  intro e he
  obtain rfl := Option.some.inj he
  exact (hall c hc).1

theorem endsNumber_suffix {c : UInt8} (rest : List UInt8)
    (hc : c ∈ [ch 'g', ch 'm', ch 'k']) : EndsNumber 10 (c :: rest) := by
  have hall : ∀ c ∈ [ch 'g', ch 'm', ch 'k'],
      ¬ (isxdigit c && digitValue c < 10) = true := by decide +kernel
  intro e he
  obtain rfl := Option.some.inj he
  exact hall c hc

theorem memsizeParse_of {ptr p : List UInt8} {ret : ℕ}
    (h : simpleStrtoul ptr 0 = (ret, p)) :
    memsizeParse ptr =
      if peek p = ch 'G' ∨ peek p = ch 'g' then (ret * 2 ^ 30 % 2 ^ 32, p.tail)
      else if peek p = ch 'M' ∨ peek p = ch 'm' then
        (ret * 2 ^ 20 % 2 ^ 32, p.tail)
      else if peek p = ch 'K' ∨ peek p = ch 'k' then
        (ret * 2 ^ 10 % 2 ^ 32, p.tail)
      else (ret, p) := by
  unfold memsizeParse
  rw [h]

/-- A size printed by `memsize_format` is read back by `memsize_parse`. -/
theorem memsizeParse_memsizeFormat {n : ℕ} (hzero : n ≠ 0) (hn : n < 2 ^ 32)
    {rest : List UInt8} (hrest : EndsSize rest) :
    memsizeParse (memsizeFormat n ++ rest) = (n, rest) := by
  have hread : ∀ (k : ℕ) (c : UInt8), c ∈ [ch 'g', ch 'm', ch 'k'] →
      n % 2 ^ k = 0 →
      simpleStrtoul (formatUnsigned (n / 2 ^ k) ++ [c] ++ rest) 0 =
        (n / 2 ^ k, c :: rest) ∧ n / 2 ^ k * 2 ^ k % 2 ^ 32 = n := by
    intro k c hc hmod
    have hmul : n / 2 ^ k * 2 ^ k = n :=
      Nat.div_mul_cancel (Nat.dvd_of_mod_eq_zero hmod)
    have hne : n / 2 ^ k ≠ 0 := by
      intro h0
      rw [h0, Nat.zero_mul] at hmul
      exact hzero hmul.symm
    rw [List.append_assoc, List.singleton_append, hmul, Nat.mod_eq_of_lt hn]
    exact ⟨simpleStrtoul_formatUnsigned hne
      (lt_of_le_of_lt (Nat.div_le_self _ _) hn) (endsNumber_suffix rest hc),
      rfl⟩
  unfold memsizeFormat
  split
  · rename_i hmod
    obtain ⟨hstr, hvalue⟩ := hread 30 (ch 'g') (by simp) hmod
    exact (memsizeParse_of hstr).trans
      ((if_pos (Or.inr rfl)).trans (by rw [hvalue]; rfl))
  · split
    · rename_i hmod
      obtain ⟨hstr, hvalue⟩ := hread 20 (ch 'm') (by simp) hmod
      refine (memsizeParse_of hstr).trans ?_
      have hg : ¬ (ch 'm' = ch 'G' ∨ ch 'm' = ch 'g') := by decide
      exact (if_neg hg).trans
        ((if_pos (Or.inr rfl)).trans (by rw [hvalue]; rfl))
    · split
      · rename_i hmod
        obtain ⟨hstr, hvalue⟩ := hread 10 (ch 'k') (by simp) hmod
        refine (memsizeParse_of hstr).trans ?_
        have hg : ¬ (ch 'k' = ch 'G' ∨ ch 'k' = ch 'g') := by decide
        have hm : ¬ (ch 'k' = ch 'M' ∨ ch 'k' = ch 'm') := by decide
        exact (if_neg hg).trans ((if_neg hm).trans
          ((if_pos (Or.inr rfl)).trans (by rw [hvalue]; rfl)))
      · rw [memsizeParse_of (simpleStrtoul_formatUnsigned hzero hn hrest.1)]
        have hall := hrest.2
        simp only [List.forall_mem_cons] at hall
        obtain ⟨h1, h2, h3, h4, h5, h6, -⟩ := hall
        rw [if_neg (by simp [h1, h2]), if_neg (by simp [h3, h4]),
          if_neg (by simp [h5, h6])]

/-- The suffixes of a size and the powers of two they stand for. -/
def sizeSuffixes : List (List UInt8 × ℕ) :=
  [([], 0), (text "k", 10), (text "K", 10), (text "m", 20), (text "M", 20),
    (text "g", 30), (text "G", 30)]

theorem memsizeParse_of_suffix {ptr suffix : List UInt8} {ret shift : ℕ}
    (hsuffix : (suffix, shift) ∈ sizeSuffixes)
    (h : simpleStrtoul ptr 0 = (ret, suffix)) (hlt : ret * 2 ^ shift < 2 ^ 32) :
    memsizeParse ptr = (ret * 2 ^ shift, []) := by
  rw [memsizeParse_of h]
  simp only [sizeSuffixes, List.mem_cons, Prod.mk.injEq, List.not_mem_nil,
    or_false] at hsuffix
  rcases hsuffix with ⟨rfl, rfl⟩ | hsuffix
  · simp [peek, ch]
  · rcases hsuffix with ⟨rfl, rfl⟩ | ⟨rfl, rfl⟩ | ⟨rfl, rfl⟩ | ⟨rfl, rfl⟩ |
      ⟨rfl, rfl⟩ | ⟨rfl, rfl⟩ <;>
      · rw [Nat.mod_eq_of_lt hlt]
        rfl

/-- Where a digit or a suffix stands behind the number, it is not multiplied by
more than the suffix. -/
theorem memsizeParse_le {ptr p suffix : List UInt8} {ret shift : ℕ}
    (hsuffix : (suffix, shift) ∈ sizeSuffixes)
    (h : simpleStrtoul ptr 0 = (ret, p))
    (hp : p = suffix ∨ isdigit (peek p) = true) (hlt : ret * 2 ^ shift < 2 ^ 32) :
    (memsizeParse ptr).1 ≤ ret * 2 ^ shift := by
  rcases hp with rfl | hdigit
  · rw [memsizeParse_of_suffix hsuffix h hlt]
  · have hno : ∀ c ∈ [ch 'G', ch 'g', ch 'M', ch 'm', ch 'K', ch 'k'],
        peek p ≠ c := by
      rintro c hc rfl
      have hall : ∀ c ∈ [ch 'G', ch 'g', ch 'M', ch 'm', ch 'K', ch 'k'],
          isdigit c = false := by
        simp [isdigit, ch]
      exact absurd hdigit (by simp [hall _ hc])
    simp only [List.forall_mem_cons] at hno
    obtain ⟨h1, h2, h3, h4, h5, h6, -⟩ := hno
    rw [memsizeParse_of h, if_neg (by simp [h1, h2]), if_neg (by simp [h3, h4]),
      if_neg (by simp [h5, h6])]
    exact Nat.le_mul_of_pos_right ret (by positivity)

/-- A size whose numeral does not start with `0`, or whose numeral is below 8,
is read exactly; any other numeral is taken for an octal one. -/
theorem memsizeParse_numeral {numeral suffix : List UInt8} {shift : ℕ}
    (hnumeral : Numeral numeral) (hsuffix : (suffix, shift) ∈ sizeSuffixes)
    (hlt : decimalDigits 0 numeral * 2 ^ shift < 2 ^ 32) :
    if peek numeral ≠ ch '0' ∨ decimalDigits 0 numeral < 8 then
      memsizeParse (numeral ++ suffix) =
        (decimalDigits 0 numeral * 2 ^ shift, [])
    else (memsizeParse (numeral ++ suffix)).1 <
      decimalDigits 0 numeral * 2 ^ shift := by
  have hends : ∀ s ∈ sizeSuffixes, peek s.1 ≠ ch 'x' ∧ ∀ c ∈ s.1.head?,
      ¬ (isxdigit c && digitValue c < 10) = true := by decide +kernel
  obtain ⟨hx, hrest⟩ := hends _ hsuffix
  have hpos : 0 < 2 ^ shift := by positivity
  have hle : decimalDigits 0 numeral ≤ decimalDigits 0 numeral * 2 ^ shift :=
    Nat.le_mul_of_pos_right _ hpos
  rcases simpleStrtoul_numeral hnumeral hrest hx (hle.trans_lt hlt) with
    ⟨hcond, hread⟩ | ⟨hcond, hless, hread⟩
  · rw [if_pos hcond]
    exact memsizeParse_of_suffix hsuffix hread hlt
  · rw [if_neg hcond]
    have hmul := Nat.mul_lt_mul_of_pos_right hless hpos
    exact (memsizeParse_le hsuffix rfl hread (hmul.trans hlt)).trans_lt hmul

/-- `memsize_parse` reads back what `memsize_format` prints, and reads a decimal
numeral with a suffix exactly unless it is an octal number of 8 or more. -/
theorem memsizeParse_exact :
    (∀ n < 2 ^ 32, memsizeParse (memsizeFormat n) = (n, [])) ∧
      ∀ numeral suffix shift, Numeral numeral → (suffix, shift) ∈ sizeSuffixes →
        decimalDigits 0 numeral * 2 ^ shift < 2 ^ 32 →
        ((memsizeParse (numeral ++ suffix)).1 =
            decimalDigits 0 numeral * 2 ^ shift ↔
          peek numeral ≠ ch '0' ∨ decimalDigits 0 numeral < 8) := by
  constructor
  · intro n hn
    by_cases hzero : n = 0
    · subst hzero
      decide
    · have hends : EndsSize [] := by
        refine ⟨?_, by simp [peek, ch]⟩
        intro c hc
        cases hc
      have hread := memsizeParse_memsizeFormat hzero hn hends
      rwa [List.append_nil] at hread
  · intro numeral suffix shift hnumeral hsuffix hlt
    have hread := memsizeParse_numeral hnumeral hsuffix hlt
    split at hread
    · rename_i hcond
      exact iff_of_true (congrArg Prod.fst hread) hcond
    · rename_i hcond
      exact iff_of_false hread.ne hcond

theorem memsizeParse_exact_64k :
    memsizeParse (memsizeFormat 0xC0000000) = (0xC0000000, []) ∧
      (memsizeParse (text "64k")).1 = 65536 := by
  have hnumeral : Numeral (text "64") := ⟨by decide, by simp [text, isdigit, ch]⟩
  exact ⟨memsizeParse_exact.1 0xC0000000 (by decide),
    (memsizeParse_exact.2 (text "64") (text "k") 10 hnumeral (by decide)
      (by decide)).mpr (Or.inl (by decide))⟩

/-- `010` is read as 8. -/
theorem not_memsizeParse_octal :
    ¬ ((∀ n < 2 ^ 32, memsizeParse (memsizeFormat n) = (n, [])) ∧
      ∀ numeral suffix shift, Numeral numeral → (suffix, shift) ∈ sizeSuffixes →
        decimalDigits 0 numeral * 2 ^ shift < 2 ^ 32 →
        (memsizeParse (numeral ++ suffix)).1 =
          decimalDigits 0 numeral * 2 ^ shift) := by
  rintro ⟨-, h⟩
  exact absurd (h (text "010") [] 0 ⟨by decide, by simp [text, isdigit, ch]⟩ (by decide)
    (by decide)) (by decide)

/-- A printed size starts with a digit. -/
theorem isdigit_peek_memsizeFormat (n : ℕ) (rest : List UInt8) :
    isdigit (peek (memsizeFormat n ++ rest)) = true := by
  have hformat : ∀ m, ∀ s : List UInt8,
      isdigit (peek (formatUnsigned m ++ s)) = true := by
    intro m s
    by_cases hm : m = 0
    · subst hm
      exact (by decide : isdigit (ch '0') = true)
    · obtain ⟨d, digits, heq, -, hdigits, -⟩ := formatUnsigned_eq hm
      rw [heq]
      have hall : ∀ e ∈ List.range 10, isdigit (digitChar e) = true := by
        decide
      exact hall d (List.mem_range.mpr (hdigits d (by simp)))
  unfold memsizeFormat
  split
  · rw [List.append_assoc]
    exact hformat _ _
  · split
    · rw [List.append_assoc]
      exact hformat _ _
    · split
      · rw [List.append_assoc]
        exact hformat _ _
      · exact hformat _ _

theorem peek_memsizeFormat_ne {c : UInt8} (hc : isdigit c = false) (n : ℕ)
    (rest : List UInt8) : peek (memsizeFormat n ++ rest) ≠ c := by
  rintro rfl
  rw [isdigit_peek_memsizeFormat] at hc
  exact absurd hc (by decide)

/-! ## Reading back a partition -/

/-- The partitions that `part_parse` can have made with a name given. -/
structure Named (part : PartInfo) : Prop where
  autoName : part.autoName = false
  name_ne : part.name ≠ []
  name_notMem : ch ')' ∉ part.name
  maskFlags : part.maskFlags = 0 ∨ part.maskFlags = mtdWriteableCmd
  size_pos : 0 < part.size
  end_lt : part.offset + part.size < 2 ^ 32

/-- What may follow a printed partition: the end, or the separator of the next
device. -/
def EndsParts (rest : List UInt8) : Prop := peek rest = 0 ∨ peek rest = ch ';'

theorem partSize_print {part : PartInfo} (hnamed : Named part)
    {rest : List UInt8} (hrest : EndsSize rest) :
    partSize (memsizeFormat part.size ++ rest) =
      if part.size < minPartSize then none else some (part.size, rest) := by
  have hpos := hnamed.size_pos
  have hlt := hnamed.end_lt
  unfold partSize
  rw [if_neg (peek_memsizeFormat_ne (by decide) part.size rest),
    memsizeParse_memsizeFormat (by omega) (by omega) hrest]

theorem partOffset_print {part : PartInfo} (hnamed : Named part)
    {prevPart : Option PartInfo} (hzero : hasGap prevPart part → part.offset ≠ 0)
    {rest : List UInt8} (hpeek : peek rest = ch '(') :
    partOffset ((if hasGap prevPart part then
        text "@" ++ memsizeFormat part.offset else []) ++ rest) =
      (if hasGap prevPart part then part.offset else offsetNotSpecified,
        rest) := by
  have hlt := hnamed.end_lt
  obtain ⟨rest, rfl⟩ : ∃ r, rest = ch '(' :: r := by
    cases rest with
    | nil => exact absurd hpeek (by decide)
    | cons c r => exact ⟨r, by rw [show c = ch '(' from hpeek]⟩
  unfold partOffset
  split
  · rename_i hgap
    rw [List.append_assoc]
    exact (if_pos rfl).trans
      (memsizeParse_memsizeFormat (hzero hgap) (by omega)
        (endsSize_cons rest (by simp)))
  · rw [List.nil_append]
    exact if_neg (by decide : ch '(' ≠ ch '@')

theorem partName_print {part : PartInfo} (hnamed : Named part)
    (rest : List UInt8) :
    partName (text "(" ++ part.name ++ text ")" ++ rest) =
      some (some part.name, rest) := by
  have hne : ∀ c ∈ part.name, decide (c ≠ ch ')') = true := by
    intro c hc
    rw [decide_eq_true_iff]
    rintro rfl
    exact hnamed.name_notMem hc
  have htail : (text "(" ++ part.name ++ text ")" ++ rest).tail =
      part.name ++ ch ')' :: rest := by
    rw [List.append_assoc, List.append_assoc]
    rfl
  have htake : (part.name ++ ch ')' :: rest).takeWhile (· ≠ ch ')') =
      part.name := by
    rw [List.takeWhile_append_of_pos hne, List.takeWhile_cons]
    simp
  have hdrop : (part.name ++ ch ')' :: rest).dropWhile (· ≠ ch ')') =
      ch ')' :: rest := by
    rw [List.dropWhile_append_of_pos hne, List.dropWhile_cons]
    simp
  have hpeek : peek (text "(" ++ part.name ++ text ")" ++ rest) = ch '(' := rfl
  unfold partName
  rw [if_pos hpeek, htail, hdrop, htake]
  exact if_neg hnamed.name_ne

theorem partOptions_print {part : PartInfo} (hnamed : Named part)
    {rest : List UInt8} (hrest : peek rest ≠ ch 'r') :
    partOptions ((if part.maskFlags ≠ 0 then text "ro" else []) ++ rest) =
      (part.maskFlags, rest) := by
  unfold partOptions
  rcases hnamed.maskFlags with hflags | hflags
  · have hno : (if part.maskFlags ≠ 0 then text "ro" else []) = [] :=
      if_neg (by simp [hflags])
    rw [hno, hflags, List.nil_append]
    have hstart : ¬ startsWith rest "ro" = true := by
      intro hstart
      obtain ⟨t, rfl⟩ := List.isPrefixOf_iff_prefix.mp hstart
      exact hrest rfl
    rw [if_neg hstart]
  · have hne : part.maskFlags ≠ 0 := by
      rw [hflags]
      decide
    rw [if_pos hne, hflags]
    have hstart : startsWith (text "ro" ++ rest) "ro" = true :=
      List.isPrefixOf_iff_prefix.mpr ⟨rest, rfl⟩
    rw [if_pos hstart]
    rfl

theorem partEnd_print {size : ℕ} {more : Bool} {rest : List UInt8}
    (hrest : more = false → EndsParts rest) :
    partEnd size ((if more then text "," else []) ++ rest) =
      if more ∧ size = sizeRemaining then none else some rest := by
  cases more with
  | true =>
      show partEnd size (ch ',' :: rest) = _
      unfold partEnd
      refine (if_pos rfl).trans ?_
      simp
  | false =>
      have hno : (if (false : Bool) ∧ size = sizeRemaining then none
          else some rest) = some rest := if_neg (by simp)
      rw [hno]
      show partEnd size rest = _
      unfold partEnd
      rcases hrest rfl with hpeek | hpeek
      · rw [hpeek, if_neg (by decide), if_pos (Or.inr rfl)]
      · rw [hpeek, if_neg (by decide), if_pos (Or.inl rfl)]

theorem partPieces_flatten {part : PartInfo} (hnamed : Named part)
    (prevPart : Option PartInfo) (more : Bool) (rest : List UInt8) :
    (partPieces prevPart part more).flatten ++ rest =
      memsizeFormat part.size ++
        ((if hasGap prevPart part then text "@" ++ memsizeFormat part.offset
          else []) ++
          (text "(" ++ part.name ++ text ")" ++
            ((if part.maskFlags ≠ 0 then text "ro" else []) ++
              ((if more then text "," else []) ++ rest)))) := by
  unfold partPieces
  rw [hnamed.autoName, if_neg Bool.false_ne_true]
  split_ifs <;> simp

/-- A printed partition is read back, if its size is not too small and not the
one that stands for what remains in front of another partition. -/
theorem partParse_print {part : PartInfo} (hnamed : Named part)
    {prevPart : Option PartInfo} (hzero : hasGap prevPart part → part.offset ≠ 0)
    {more : Bool} {rest : List UInt8} (hrest : more = false → EndsParts rest)
    (addr : ℕ) :
    partParse ((partPieces prevPart part more).flatten ++ rest) addr =
      if part.size < minPartSize ∨ more ∧ part.size = sizeRemaining then none
      else some ({ part with
          addr := addr
          offset := if hasGap prevPart part then part.offset
            else offsetNotSpecified }, rest) := by
  have hname : peek (text "(" ++ part.name ++ text ")" ++
      ((if part.maskFlags ≠ 0 then text "ro" else []) ++
        ((if more then text "," else []) ++ rest))) = ch '(' := rfl
  have hsize : EndsSize ((if hasGap prevPart part then
        text "@" ++ memsizeFormat part.offset else []) ++
      (text "(" ++ part.name ++ text ")" ++
        ((if part.maskFlags ≠ 0 then text "ro" else []) ++
          ((if more then text "," else []) ++ rest)))) := by
    split
    · exact endsSize_cons (c := ch '@') _ (by simp)
    · exact endsSize_cons (c := ch '(') _ (by simp)
  have hoption : peek ((if more then text "," else []) ++ rest) ≠ ch 'r' := by
    cases more with
    | true => exact (by decide : ch ',' ≠ ch 'r')
    | false =>
        show peek rest ≠ ch 'r'
        rcases hrest rfl with hpeek | hpeek
        · rw [hpeek]
          decide
        · rw [hpeek]
          decide
  rw [partPieces_flatten hnamed]
  unfold partParse
  rw [partSize_print hnamed hsize]
  by_cases hmin : part.size < minPartSize
  · rw [if_pos hmin, if_pos (Or.inl hmin)]
  · rw [if_neg hmin]
    dsimp only
    rw [partOffset_print hnamed hzero hname]
    dsimp only
    rw [partName_print hnamed]
    dsimp only
    rw [partOptions_print hnamed hoption]
    dsimp only
    rw [partEnd_print hrest]
    by_cases hfill : more ∧ part.size = sizeRemaining
    · rw [if_pos hfill, if_pos (Or.inr hfill)]
    · have hneither : ¬ (part.size < minPartSize ∨
          more = true ∧ part.size = sizeRemaining) := by tauto
      rw [if_neg hfill, if_neg hneither]
      simp [newPart, hnamed.autoName]

end TateFirmware.Mtd
