import TateFirmware.Boot.MultiImage
import Mathlib.Algebra.BigOperators.Intervals
import Mathlib.Algebra.Order.BigOperators.Group.List
import Mathlib.Tactic.Ring

/-!
# The parts of a multi-file image

An image that `mkimage` has written starts with its header and the table of
the sizes, and each file but the last one is padded to a multiple of four.  The
readers find the files again.
-/

namespace TateFirmware.Boot

open LibGeneric Support

/-! ## The header -/

@[simp] theorem htonlBytes_length (n : ℕ) : (htonlBytes n).length = 4 := rfl

/-- `ntohl` of the bytes of `htonl`. -/
theorem ntohlAt_of_take {bytes : List UInt8} {i n : ℕ}
    (h : (bytes.drop i).take 4 = htonlBytes n) :
    ntohlAt bytes i = n % 2 ^ 32 := by
  have hget : ∀ j < 4, bytes.getD (i + j) 0 = (htonlBytes n).getD j 0 := by
    intro j hj
    rw [← h]
    simp only [List.getD_eq_getElem?_getD, List.getElem?_take_of_lt hj,
      List.getElem?_drop]
  have h0 := hget 0 (by decide)
  have h1 := hget 1 (by decide)
  have h2 := hget 2 (by decide)
  have h3 := hget 3 (by decide)
  unfold ntohlAt
  rw [Nat.add_zero] at h0
  rw [h0, h1, h2, h3]
  simp only [htonlBytes, List.getD_cons_zero, List.getD_cons_succ,
    UInt8.toNat_ofNat']
  omega

section Header

variable (opts : MkimageOptions) (host : MkimageHost) (data : List UInt8)
  (hcrc : ℕ)

theorem buildHeader_length :
    (buildHeader opts host data hcrc).length = imageHeaderSize := by
  simp only [buildHeader, List.length_append, htonlBytes_length,
    List.length_cons, List.length_nil, List.length_take, List.length_replicate,
    imageHeaderSize]
  omega

theorem ihMagic_buildHeader :
    ihMagic (buildHeader opts host data hcrc) = ihMagicValue :=
  ntohlAt_of_take (n := ihMagicValue) rfl

theorem ihHcrc_buildHeader :
    ihHcrc (buildHeader opts host data hcrc) = hcrc % 2 ^ 32 :=
  ntohlAt_of_take rfl

theorem ihSize_buildHeader :
    ihSize (buildHeader opts host data hcrc) = data.length % 2 ^ 32 :=
  ntohlAt_of_take rfl

theorem ihDcrc_buildHeader :
    ihDcrc (buildHeader opts host data hcrc) = (crc32 0 data).toNat := by
  rw [ihDcrc, @ntohlAt_of_take _ _ (crc32 0 data).toNat rfl]
  exact Nat.mod_eq_of_lt (crc32 0 data).toNat_lt

theorem ihType_buildHeader :
    ihType (buildHeader opts host data hcrc) = opts.type := rfl

theorem ihComp_buildHeader :
    ihComp (buildHeader opts host data hcrc) = opts.comp := rfl

/-- The checksum is that of the header before it has one. -/
theorem headerCrc_buildHeader :
    headerCrc (buildHeader opts host data hcrc) =
      (crc32 0 (buildHeader opts host data 0)).toNat := rfl

end Header

/-! ## The table -/

/-- The sizes stand in the table one behind the other. -/
theorem lenTable_entry (files : List (List UInt8)) (rest : List UInt8) {i : ℕ}
    (hi : i ≤ files.length) :
    ((lenTable files ++ rest).drop (4 * i)).take 4 =
      htonlBytes ((files.map List.length).getD i 0) := by
  induction files generalizing i with
  | nil =>
      have hi0 : i = 0 := by simpa using hi
      subst hi0
      rfl
  | cons file files ih =>
      cases i with
      | zero => rfl
      | succ i =>
          have hsplit : lenTable (file :: files) ++ rest =
              htonlBytes file.length ++ (lenTable files ++ rest) := by
            simp [lenTable]
          have hdrop : 4 * (i + 1) = (htonlBytes file.length).length + 4 * i := by
            rw [htonlBytes_length]
            ring
          rw [hsplit, hdrop, List.drop_length_add_append]
          exact ih (Nat.le_of_succ_le_succ hi)

theorem lenTable_length (files : List (List UInt8)) :
    (lenTable files).length = 4 * (files.length + 1) := by
  induction files with
  | nil => rfl
  | cons file files ih =>
      have hsplit : lenTable (file :: files) =
          htonlBytes file.length ++ lenTable files := by
        simp [lenTable]
      rw [hsplit, List.length_append, ih, htonlBytes_length, List.length_cons]
      ring

/-! ## The files -/

/-- The length of a part that is followed by another one. -/
def paddedLength (len : ℕ) : ℕ := len + (4 - len % 4) % 4

/-- Where part `k` starts behind the table. -/
def skipped (files : List (List UInt8)) (k : ℕ) : ℕ :=
  ((files.take k).map fun file => paddedLength file.length).sum

theorem intOfWord_of_lt {n : ℕ} (h : n < 2 ^ 31) : intOfWord n = n := by
  have hmod : n % 2 ^ 32 = n := Nat.mod_eq_of_lt (by omega)
  rw [intOfWord, hmod, if_pos h]

theorem intOfWord_of_ge {n : ℕ} (hge : 2 ^ 31 ≤ n) (hlt : n < 2 ^ 32) :
    intOfWord n = n - (2 ^ 32 : ℤ) := by
  have hmod : n % 2 ^ 32 = n := Nat.mod_eq_of_lt hlt
  rw [intOfWord, hmod, if_neg (by omega)]

theorem intOfWord_add (n : ℕ) : intOfWord (n + 2 ^ 32) = intOfWord n := by
  rw [intOfWord, intOfWord, Nat.add_mod_right]

/-- A file whose size is an `int` is copied. -/
theorem copyFile_of_lt {host : MkimageHost} {pad : Bool} {file : List UInt8}
    (hlen : file.length < 2 ^ 31) :
    ∃ zeros, copyFile host false pad file = some (file ++ zeros) ∧
      (pad = true → file.length + zeros.length = paddedLength file.length) := by
  have hsize : intOfWord (file.length + 2 ^ 32 - 0) = file.length := by
    rw [Nat.sub_zero, intOfWord_add, intOfWord_of_lt hlen]
  refine ⟨if pad then padding host file.length else [], ?_, ?_⟩
  · unfold copyFile
    simp only [Bool.false_eq_true, false_and, if_false, hsize]
    rw [if_pos (Or.inl (Int.natCast_nonneg _)), List.drop_zero,
      Int.toNat_natCast, List.take_length]
  · intro hpad
    rw [if_pos hpad, paddedLength, padding]
    have htail : Int.tmod (file.length : ℤ) 4 = (file.length % 4 : ℕ) := rfl
    rw [htail]
    split
    · simp only [List.length_take, List.length_cons, List.length_nil]
      omega
    · simp only [List.length_nil]
      omega

theorem copyFiles_cons {host : MkimageHost} {file next : List UInt8}
    {files : List (List UInt8)} {body : List UInt8}
    (hbody : copyFiles host false (file :: next :: files) = some body) :
    ∃ bytes rest, copyFile host false true file = some bytes ∧
      copyFiles host false (next :: files) = some rest ∧
        bytes ++ rest = body := by
  rw [copyFiles] at hbody
  · cases hcopy : copyFile host false true file with
    | none =>
        rw [hcopy] at hbody
        cases hbody
    | some bytes =>
        cases hrest : copyFiles host false (next :: files) with
        | none =>
            rw [hcopy, hrest] at hbody
            cases hbody
        | some rest =>
            rw [hcopy, hrest] at hbody
            exact ⟨bytes, rest, rfl, rfl, Option.some_inj.mp hbody⟩
  · intro h
    cases h

/-- The files stand behind the table, padded. -/
theorem copyFiles_part {host : MkimageHost} {files : List (List UInt8)}
    {body : List UInt8} (hbody : copyFiles host false files = some body)
    (hlens : ∀ file ∈ files, file.length < 2 ^ 31) {k : ℕ}
    (hk : k < files.length) :
    (body.drop (skipped files k)).take files[k].length = files[k] := by
  induction files generalizing body k with
  | nil => exact absurd hk (Nat.not_lt_zero k)
  | cons file files ih =>
      cases files with
      | nil =>
          obtain ⟨zeros, hcopy, -⟩ := @copyFile_of_lt host false file
            (hlens file List.mem_cons_self)
          rw [copyFiles, hcopy, Option.some_inj] at hbody
          have hk0 : k = 0 := by simpa using hk
          subst hk0
          subst hbody
          simp [skipped]
      | cons next files =>
          obtain ⟨zeros, hcopy, hpadded⟩ := @copyFile_of_lt host true file
            (hlens file List.mem_cons_self)
          have hlens' : ∀ f ∈ next :: files, f.length < 2 ^ 31 :=
            fun f hf => hlens f (List.mem_cons_of_mem file hf)
          obtain ⟨bytes, rest, hcopy', hrest, rfl⟩ := copyFiles_cons hbody
          rw [hcopy, Option.some_inj] at hcopy'
          subst hcopy'
          cases k with
          | zero => simp [skipped]
          | succ k =>
              have hpart := ih hrest hlens' (Nat.lt_of_succ_lt_succ hk)
              have hskip : skipped (file :: next :: files) (k + 1) =
                  (file ++ zeros).length + skipped (next :: files) k := by
                rw [List.length_append, hpadded rfl]
                rfl
              rw [hskip, List.drop_length_add_append]
              exact hpart

/-! ## The image in memory -/

theorem read_of_holds {mem : Memory UInt8} {addr : ℕ} {image : List UInt8}
    (hholds : mem.Holds addr image) (htop : addr + image.length ≤ 2 ^ 32)
    {i n : ℕ} (hin : i + n ≤ image.length) :
    mem.wrap.read (addr + i) n = (image.drop i).take n := by
  apply List.ext_getElem
  · rw [Memory.read_length, List.length_take, List.length_drop]
    omega
  · intro j hj hj'
    rw [Memory.read_length] at hj
    rw [Memory.read_getElem, List.getElem_take, List.getElem_drop]
    have hmod : (addr + i + j) % 2 ^ 32 = addr + (i + j) := by
      rw [Nat.mod_eq_of_lt (by omega), Nat.add_assoc]
    rw [Memory.wrap, hmod]
    exact hholds (i + j) (by omega)

/-- What stands in memory at `addr`: the header and the data behind it. -/
structure ImageAt (opts : MkimageOptions) (host : MkimageHost)
    (data : List UInt8) (hcrc : ℕ) (mem : Memory UInt8) (addr : ℕ) :
    Prop where
  header : headerAt mem addr = buildHeader opts host data hcrc
  table : (addr + imageHeaderSize) % 2 ^ 32 = addr + imageHeaderSize
  data : ∀ i n, i + n ≤ data.length →
    mem.wrap.read (addr + imageHeaderSize + i) n = (data.drop i).take n

theorem imageAt_of_holds {opts : MkimageOptions} {host : MkimageHost}
    {data : List UInt8} {hcrc addr : ℕ} {mem : Memory UInt8}
    (hdata : data ≠ [])
    (hholds : mem.Holds addr (buildHeader opts host data hcrc ++ data))
    (htop : addr + (buildHeader opts host data hcrc ++ data).length ≤ 2 ^ 32) :
    ImageAt opts host data hcrc mem addr := by
  have hlen := buildHeader_length opts host data hcrc
  have hpos := List.length_pos_iff.mpr hdata
  have htotal : (buildHeader opts host data hcrc ++ data).length =
      imageHeaderSize + data.length := by
    rw [List.length_append, hlen]
  refine ⟨?_, ?_, ?_⟩
  · have hread := read_of_holds hholds htop
      (show 0 + imageHeaderSize ≤ _ by omega)
    rw [List.drop_zero, ← hlen, List.take_left, hlen] at hread
    exact hread
  · exact Nat.mod_eq_of_lt (by omega)
  · intro i n hin
    have hread := read_of_holds hholds htop
      (show (imageHeaderSize + i) + n ≤ _ by omega)
    have hdrop : (buildHeader opts host data hcrc ++ data).drop
        (imageHeaderSize + i) = data.drop i := by
      rw [← hlen, List.drop_length_add_append]
    rw [hdrop, ← Nat.add_assoc] at hread
    exact hread

section Readers

variable {opts : MkimageOptions} {host : MkimageHost}
  {files : List (List UInt8)} {body : List UInt8} {hcrc addr : ℕ}
  {mem : Memory UInt8}

/-- The length of part `i`; 0 at the end of the table. -/
def partLength (files : List (List UInt8)) (i : ℕ) : ℕ :=
  (files.map List.length).getD i 0

theorem partLength_pos (hnonempty : ∀ file ∈ files, file ≠ []) {i : ℕ}
    (hi : i < files.length) : partLength files i ≠ 0 := by
  have hfile := List.length_pos_iff.mpr (hnonempty _ (List.getElem_mem hi))
  have hget : partLength files i = files[i].length := by
    simp [partLength, hi]
  omega

theorem partLength_length : partLength files files.length = 0 := by
  simp [partLength]

/-- `len_ptr[i]` is the length of part `i`. -/
theorem ImageAt.lenPtr_eq
    (h : ImageAt opts host (lenTable files ++ body) hcrc mem addr)
    (hlens : ∀ file ∈ files, file.length < 2 ^ 32) {i : ℕ}
    (hi : i ≤ files.length) :
    lenPtr mem (addr + imageHeaderSize) i = partLength files i := by
  have hlen := lenTable_length files
  have hread := h.data (4 * i) 4 (by rw [List.length_append]; omega)
  rw [lenTable_entry files body hi] at hread
  have hword : ntohlAt (mem.wrap.read (addr + imageHeaderSize + 4 * i) 4) 0 =
      partLength files i % 2 ^ 32 := by
    refine ntohlAt_of_take ?_
    rw [hread]
    rfl
  rw [lenPtr, hword]
  refine Nat.mod_eq_of_lt ?_
  unfold partLength
  rcases Nat.lt_or_ge i files.length with hlt | hge
  · simpa [hlt] using hlens _ (List.getElem_mem hlt)
  · simp [hge]

/-! ## The loops over the lengths -/

/-- The loop over the lengths ends at the terminator. -/
theorem countLens_eq {table n : ℕ} (hpos : ∀ i < n, lenPtr mem table i ≠ 0)
    (hzero : lenPtr mem table n = 0) {fuel i : ℕ} (hi : i ≤ n)
    (hfuel : n < i + fuel) : countLens mem table fuel i = some (n - 1) := by
  induction fuel generalizing i with
  | zero => exact absurd hfuel (by omega)
  | succ fuel ih =>
      rcases Nat.lt_or_ge i n with hlt | hge
      · rw [countLens, if_neg (hpos i hlt)]
        exact ih hlt (by omega)
      · have hin : i = n := Nat.le_antisymm hi hge
        rw [countLens, hin, if_pos hzero]

/-- What the loop of `do_imgextract` skips of part `i`. -/
def skip (mem : Memory UInt8) (table : ℕ) (part : Option ℤ) (i : ℕ) : ℕ :=
  match part with
  | none => 0
  | some part =>
      if (i : ℤ) < part then paddedLength (lenPtr mem table i) else 0

theorem extractLoop_step (table : ℕ) (part : Option ℤ) {fuel i data : ℕ}
    (hpos : lenPtr mem table i ≠ 0) :
    extractLoop mem table part (fuel + 1) i data =
      extractLoop mem table part fuel (i + 1)
        (data + 4 + skip mem table part i) := by
  rw [extractLoop, if_neg hpos]
  cases part with
  | none => rfl
  | some part =>
      dsimp only [skip, paddedLength]
      by_cases hpart : (i : ℤ) < part
      · rw [if_pos hpart, if_pos hpart]
        congr 1
        split
        · omega
        · omega
      · rw [if_neg hpart, if_neg hpart]

theorem extractLoop_eq {table n : ℕ} (part : Option ℤ)
    (hpos : ∀ i < n, lenPtr mem table i ≠ 0) (hzero : lenPtr mem table n = 0)
    {fuel i data : ℕ} (hi : i ≤ n) (hfuel : n < i + fuel) :
    extractLoop mem table part fuel i data =
      some (n, data + 4 * (n - i) +
        ∑ j ∈ Finset.Ico i n, skip mem table part j) := by
  induction fuel generalizing i data with
  | zero => exact absurd hfuel (by omega)
  | succ fuel ih =>
      rcases Nat.lt_or_ge i n with hlt | hge
      · have hle : i + 1 ≤ n := hlt
        rw [extractLoop_step table part (hpos i hlt), ih hle (by omega),
          Finset.sum_eq_sum_Ico_succ_bot hlt]
        congr 2
        omega
      · have hin : i = n := Nat.le_antisymm hi hge
        subst hin
        rw [extractLoop, if_pos hzero, Nat.sub_self, Finset.Ico_self,
          Finset.sum_empty, Nat.mul_zero, Nat.add_zero, Nat.add_zero]

end Readers

/-! ## The readers -/

/-- Where part `k` starts in the image. -/
def partOffset (files : List (List UInt8)) (k : ℕ) : ℕ :=
  imageHeaderSize + 4 * (files.length + 1) + skipped files k

/-- An address and a length delimit part `k` of the image at `addr`. -/
def Delimits (files : List (List UInt8)) (image : List UInt8) (addr k : ℕ)
    (p : ℕ × ℕ) : Prop :=
  ∃ file, files[k]? = some file ∧
    p = (addr + partOffset files k, file.length) ∧
      (image.drop (partOffset files k)).take file.length = file

/-- The bytes of part `k` stand where the readers look for them. -/
def Placed (files : List (List UInt8)) (image : List UInt8) : Prop :=
  ∀ k (hk : k < files.length),
    (image.drop (partOffset files k)).take files[k].length = files[k]

theorem Placed.delimits {files : List (List UInt8)} {image : List UInt8}
    {addr : ℕ} (hplaced : Placed files image)
    {k : ℕ} (hk : k < files.length) :
    Delimits files image addr k
      (addr + partOffset files k, partLength files k) := by
  refine ⟨files[k], List.getElem?_eq_getElem hk, ?_, hplaced k hk⟩
  simp [partLength, hk]

/-- A part that is placed starts inside the image. -/
theorem Placed.offset_lt {files : List (List UInt8)} {image : List UInt8}
    (hplaced : Placed files image)
    (hnonempty : ∀ file ∈ files, file ≠ []) {k : ℕ} (hk : k < files.length) :
    partOffset files k < image.length := by
  have hbytes := congrArg List.length (hplaced k hk)
  have hpos := List.length_pos_iff.mpr (hnonempty _ (List.getElem_mem hk))
  rw [List.length_take, List.length_drop] at hbytes
  omega

/-- The readers of the image that stands in memory at `addr` delimit the files
it was made of, and `imxtract` with part number `k` rejects a part that is not
there. -/
structure PartsDelimited (opts : MkimageOptions) (files : List (List UInt8))
    (image : List UInt8) (env : BootEnv) (mem : Memory UInt8) (addr : ℕ)
    (argv : List (List UInt8)) (k : ℕ) : Prop where
  kernel : ∃ p, imageData mem (headerAt mem addr)
      ((addr + imageHeaderSize) % 2 ^ 32) = some p ∧
    Delimits files image addr 0 p
  initrd : 1 < files.length → ∃ p, multiInitrd mem (headerAt mem addr)
      ((addr + imageHeaderSize) % 2 ^ 32) = some p ∧
    Delimits files image addr 1 p
  extracts : k < files.length → opts.comp = ihCompNone →
    ∃ fileaddr filesize mem',
      doImgextract env mem argv = .extracted fileaddr filesize mem' ∧
        Delimits files image addr k (fileaddr, filesize)
  rejects : files.length ≤ k → doImgextract env mem argv = .returned 1

/-- An image of `files` in memory. -/
structure MultiAt (opts : MkimageOptions) (host : MkimageHost)
    (files : List (List UInt8)) (body : List UInt8) (mem : Memory UInt8)
    (addr : ℕ) : Prop where
  image : ImageAt opts host (lenTable files ++ body)
    (crc32 0 (buildHeader opts host (lenTable files ++ body) 0)).toNat mem addr
  multi : opts.type = ihTypeMulti
  nonempty : ∀ file ∈ files, file ≠ []
  lens : ∀ file ∈ files, file.length < 2 ^ 32
  top : addr + imageHeaderSize + (lenTable files ++ body).length ≤ 2 ^ 32

namespace MultiAt

variable {opts : MkimageOptions} {host : MkimageHost}
  {files : List (List UInt8)} {body : List UInt8} {addr : ℕ}
  {mem : Memory UInt8}

theorem lenPtr_pos (h : MultiAt opts host files body mem addr) :
    ∀ i < files.length, lenPtr mem (addr + imageHeaderSize) i ≠ 0 := by
  intro i hi
  rw [h.image.lenPtr_eq h.lens hi.le]
  exact partLength_pos h.nonempty hi

theorem lenPtr_end (h : MultiAt opts host files body mem addr) :
    lenPtr mem (addr + imageHeaderSize) files.length = 0 := by
  rw [h.image.lenPtr_eq h.lens le_rfl]
  exact partLength_length

theorem count_lt (h : MultiAt opts host files body mem addr) :
    files.length + 1 < 2 ^ 30 := by
  have htop := h.top
  rw [List.length_append, lenTable_length, imageHeaderSize] at htop
  omega

theorem countAllLens_eq (h : MultiAt opts host files body mem addr)
    (hfiles : files ≠ []) :
    countAllLens mem (addr + imageHeaderSize) = some (files.length - 1) := by
  have hlt := h.count_lt
  have hpos := List.length_pos_iff.mpr hfiles
  exact countLens_eq h.lenPtr_pos h.lenPtr_end hpos (by omega)

/-- `do_bootm` takes the first part, wherever its bytes are. -/
theorem imageData_eq (h : MultiAt opts host files body mem addr)
    (hfiles : files ≠ []) :
    imageData mem (headerAt mem addr) ((addr + imageHeaderSize) % 2 ^ 32) =
      some (addr + partOffset files 0, partLength files 0) := by
  have hpos := List.length_pos_iff.mpr hfiles
  rw [h.image.table, imageData, h.image.header, ihType_buildHeader,
    if_pos h.multi, h.countAllLens_eq hfiles, h.image.lenPtr_eq h.lens
      (Nat.zero_le _)]
  have haddr : addr + imageHeaderSize + 8 + 4 * (files.length - 1) =
      addr + partOffset files 0 := by
    unfold partOffset skipped
    rw [List.take_zero, List.map_nil, List.sum_nil]
    omega
  dsimp only
  rw [haddr]

theorem skipped_one (hfiles : files ≠ []) :
    skipped files 1 = paddedLength (partLength files 0) := by
  cases files with
  | nil => exact absurd rfl hfiles
  | cons file files => simp [skipped, partLength]

/-- `do_bootm_linux` takes the second part. -/
theorem multiInitrd_eq (h : MultiAt opts host files body mem addr)
    (htwo : 1 < files.length)
    (hplace : addr + partOffset files 1 < 2 ^ 32) :
    multiInitrd mem (headerAt mem addr) ((addr + imageHeaderSize) % 2 ^ 32) =
      some (addr + partOffset files 1, partLength files 1) := by
  have hfiles : files ≠ [] := by
    rintro rfl
    exact absurd htwo (Nat.not_lt_zero 1)
  have hzero := h.image.lenPtr_eq h.lens (Nat.zero_le _)
  have hone := h.image.lenPtr_eq h.lens htwo.le
  have hskip := skipped_one hfiles
  rw [h.image.table, multiInitrd, h.image.header, ihType_buildHeader,
    if_pos ⟨h.multi, h.lenPtr_pos 1 htwo⟩, h.countAllLens_eq hfiles, hzero, hone]
  have haddr : (if partLength files 0 % 4 ≠ 0 then
        addr + imageHeaderSize + 8 + 4 * (files.length - 1) +
          partLength files 0 + (4 - partLength files 0 % 4)
      else addr + imageHeaderSize + 8 + 4 * (files.length - 1) +
        partLength files 0) = addr + partOffset files 1 := by
    unfold partOffset
    rw [hskip, paddedLength]
    split
    · omega
    · omega
  dsimp only
  rw [haddr, Nat.mod_eq_of_lt hplace]

/-- What the loop of `do_imgextract` skips to reach a part that is there. -/
theorem sum_skip (h : MultiAt opts host files body mem addr) {k : ℕ}
    (hk : k ≤ files.length) :
    ∑ j ∈ Finset.Ico 0 files.length,
        skip mem (addr + imageHeaderSize) (some (k : ℤ)) j =
      skipped files k := by
  have hfilter : (Finset.Ico 0 files.length).filter
      (fun j : ℕ => (j : ℤ) < (k : ℤ)) =
      Finset.range k := by
    ext j
    simp only [Finset.mem_filter, Finset.mem_Ico, Finset.mem_range]
    omega
  unfold skip
  dsimp only
  rw [← Finset.sum_filter, hfilter]
  clear hfilter
  induction k with
  | zero => rfl
  | succ k ih =>
      have hlt : k < files.length := hk
      rw [Finset.sum_range_succ, ih hlt.le, h.image.lenPtr_eq h.lens hlt.le]
      unfold skipped
      rw [List.take_add_one, List.getElem?_eq_getElem hlt, List.map_append,
        List.sum_append]
      simp [partLength, hlt]

theorem dataCrc_eq (h : MultiAt opts host files body mem addr) :
    dataCrc mem addr = ihDcrc (headerAt mem addr) := by
  have htop := h.top
  have hpos : 0 < imageHeaderSize := by decide
  have hsize : ihSize (headerAt mem addr) =
      (lenTable files ++ body).length := by
    rw [h.image.header, ihSize_buildHeader, Nat.mod_eq_of_lt (by omega)]
  have hread := h.image.data 0 (lenTable files ++ body).length (by omega)
  rw [Nat.add_zero, List.drop_zero, List.take_length] at hread
  rw [dataCrc, hsize, hread, h.image.header, ihDcrc_buildHeader]

theorem extractAllLens_eq (h : MultiAt opts host files body mem addr)
    (part : Option ℤ) :
    extractAllLens mem (addr + imageHeaderSize) part =
      some (files.length, addr + imageHeaderSize + 4 + 4 * files.length +
        ∑ j ∈ Finset.Ico 0 files.length,
          skip mem (addr + imageHeaderSize) part j) := by
  have hlt := h.count_lt
  exact extractLoop_eq part h.lenPtr_pos h.lenPtr_end (Nat.zero_le _) (by omega)

/-- `imxtract` on an image that is not compressed. -/
theorem imgextract_eq (h : MultiAt opts host files body mem addr)
    (env : BootEnv) (k : ℕ) (dest : Option ℕ)
    (hcomp : opts.comp = ihCompNone) :
    ∃ mem', imgextract env mem addr (some k) dest =
      if (files.length : ℤ) ≤ intOfWord k then .returned 1
      else .extracted
        ((addr + imageHeaderSize + 4 + 4 * files.length +
          ∑ j ∈ Finset.Ico 0 files.length, skip mem (addr + imageHeaderSize)
            (some (intOfWord k)) j) % 2 ^ 32)
        (lenPtr mem (addr + imageHeaderSize) k) mem' := by
  have hmagic : ¬ ihMagic (headerAt mem addr) ≠ ihMagicValue := by
    rw [h.image.header, ihMagic_buildHeader]
    exact not_not_intro rfl
  have hhcrc : ¬ headerCrc (headerAt mem addr) ≠ ihHcrc (headerAt mem addr) := by
    rw [h.image.header, headerCrc_buildHeader, ihHcrc_buildHeader,
      Nat.mod_eq_of_lt (UInt32.toNat_lt _)]
    exact not_not_intro rfl
  have htype : ¬ ihType (headerAt mem addr) ≠ ihTypeMulti := by
    rw [h.image.header, ihType_buildHeader]
    exact not_not_intro h.multi
  have hnone : ¬ ihComp (headerAt mem addr) ≠ ihCompNone := by
    rw [h.image.header, ihComp_buildHeader]
    exact not_not_intro hcomp
  have hdcrc : ¬ (env.verifies = true ∧
      dataCrc mem addr ≠ ihDcrc (headerAt mem addr)) := by
    rintro ⟨-, hne⟩
    exact hne h.dataCrc_eq
  unfold imgextract
  rw [if_neg hmagic, if_neg hhcrc, if_neg htype, if_neg hnone, if_neg hdcrc,
    h.image.table, Option.map_some, h.extractAllLens_eq]
  unfold takePart
  simp only [Option.mem_some_iff, exists_eq_left', Option.getD_some]
  split
  · exact ⟨mem, rfl⟩
  · exact ⟨_, rfl⟩

/-- `imxtract` rejects an image that is compressed. -/
theorem imgextract_of_comp (h : MultiAt opts host files body mem addr)
    (env : BootEnv) (part dest : Option ℕ) (hcomp : opts.comp ≠ ihCompNone) :
    imgextract env mem addr part dest = .returned 1 := by
  have hne : ihComp (headerAt mem addr) ≠ ihCompNone := by
    rw [h.image.header, ihComp_buildHeader]
    exact hcomp
  unfold imgextract
  split
  · rfl
  split
  · rfl
  split
  · rfl
  · rfl

/-- The readers find parts that are placed. -/
theorem partsDelimited (h : MultiAt opts host files body mem addr)
    (hfiles : files ≠ []) {image : List UInt8} (hplaced : Placed files image)
    (htop : addr + image.length ≤ 2 ^ 32) (env : BootEnv)
    {argv : List (List UInt8)} {k : ℕ} {dest : Option ℕ}
    (hargv : doImgextract env mem argv = imgextract env mem addr (some k) dest)
    (hk : k < 2 ^ 31 ∨ opts.comp ≠ ihCompNone) (hword : k < 2 ^ 32) :
    PartsDelimited opts files image env mem addr argv k := by
  have hpos := List.length_pos_iff.mpr hfiles
  refine ⟨?_, ?_, ?_, ?_⟩
  · exact ⟨_, h.imageData_eq hfiles, hplaced.delimits hpos⟩
  · intro htwo
    have hlt := hplaced.offset_lt h.nonempty htwo
    exact ⟨_, h.multiInitrd_eq htwo (by omega), hplaced.delimits htwo⟩
  · intro hlt hcomp
    have hcount := h.count_lt
    have hpart : intOfWord k = k := intOfWord_of_lt (by omega)
    obtain ⟨mem', hextract⟩ := h.imgextract_eq env k dest hcomp
    rw [if_neg (by rw [hpart]; omega), hpart, h.sum_skip hlt.le,
      h.image.lenPtr_eq h.lens hlt.le] at hextract
    have hplace := hplaced.offset_lt h.nonempty hlt
    have haddr : (addr + imageHeaderSize + 4 + 4 * files.length +
        skipped files k) % 2 ^ 32 = addr + partOffset files k := by
      have hoffset : partOffset files k = imageHeaderSize +
          4 * (files.length + 1) + skipped files k := rfl
      omega
    rw [haddr] at hextract
    exact ⟨_, _, mem', hargv.trans hextract, hplaced.delimits hlt⟩
  · intro hge
    rw [hargv]
    by_cases hcomp : opts.comp = ihCompNone
    · have hlt : k < 2 ^ 31 := hk.resolve_right (not_not_intro hcomp)
      obtain ⟨mem', hextract⟩ := h.imgextract_eq env k dest hcomp
      rw [hextract, intOfWord_of_lt hlt, if_pos (by omega)]
    · exact h.imgextract_of_comp env (some k) dest hcomp

/-- A part number that is a negative `int` is not rejected. -/
theorem not_rejects (h : MultiAt opts host files body mem addr)
    {image : List UInt8} (env : BootEnv) {argv : List (List UInt8)} {k : ℕ}
    {dest : Option ℕ}
    (hargv : doImgextract env mem argv = imgextract env mem addr (some k) dest)
    (hge : 2 ^ 31 ≤ k) (hword : k < 2 ^ 32) (hcomp : opts.comp = ihCompNone) :
    ¬ PartsDelimited opts files image env mem addr argv k := by
  intro hparts
  have hcount := h.count_lt
  have hrejects := hparts.rejects (by omega)
  obtain ⟨mem', hextract⟩ := h.imgextract_eq env k dest hcomp
  rw [hargv, hextract, intOfWord_of_ge hge hword, if_neg (by omega)] at hrejects
  cases hrejects

end MultiAt

/-! ## Images of `mkimage` -/

/-- The image that `mkimage` has written, in memory. -/
theorem multiAt_of_mkimage {opts : MkimageOptions} {host : MkimageHost}
    {files : List (List UInt8)} {image : List UInt8} {mem : Memory UInt8}
    {addr : ℕ} (hmulti : opts.type = ihTypeMulti) (hxip : opts.xflag = false)
    (hnonempty : ∀ file ∈ files, file ≠ [])
    (htotal : (files.map List.length).sum < 2 ^ 32)
    (himage : mkimage opts host files = some image)
    (hholds : mem.Holds addr image) (htop : addr + image.length ≤ 2 ^ 32) :
    ∃ body, copyFiles host false files = some body ∧
      image.drop (imageHeaderSize + 4 * (files.length + 1)) = body ∧
      MultiAt opts host files body mem addr := by
  unfold mkimage at himage
  rw [hxip] at himage
  cases hbody : copyFiles host false files with
  | none =>
      rw [hbody] at himage
      cases himage
  | some body =>
      rw [hbody] at himage
      have himage' := Option.some_inj.mp himage
      refine ⟨body, rfl, ?_, ?_, hmulti, hnonempty, ?_, ?_⟩
      · rw [← himage', ← buildHeader_length opts host,
          List.drop_length_add_append, ← lenTable_length, List.drop_left]
      · rw [← himage'] at hholds htop
        refine imageAt_of_holds ?_ hholds htop
        intro hnil
        have hlen := congrArg List.length hnil
        rw [List.length_append, lenTable_length, List.length_nil] at hlen
        omega
      · intro file hfile
        have hle : file.length ≤ (files.map List.length).sum :=
          List.le_sum_of_mem (List.mem_map_of_mem hfile)
        exact Nat.lt_of_le_of_lt hle htotal
      · rw [← himage', List.length_append, buildHeader_length,
          ← Nat.add_assoc] at htop
        exact htop

/-- `copy_file` exits when the size of the file is a negative `int` other
than -1, the result of a `write` that fails. -/
theorem copyFile_lens {host : MkimageHost} {pad : Bool} {file bytes : List UInt8}
    (hcopy : copyFile host false pad file = some bytes)
    (hlen : file.length < 2 ^ 32) :
    file.length < 2 ^ 31 ∨ file.length = 2 ^ 32 - 1 := by
  rcases Nat.lt_or_ge file.length (2 ^ 31) with hlt | hge
  · exact Or.inl hlt
  · have hsize : intOfWord (file.length + 2 ^ 32 - 0) =
        file.length - (2 ^ 32 : ℤ) := by
      rw [Nat.sub_zero, intOfWord_add, intOfWord_of_ge hge hlen]
    unfold copyFile at hcopy
    simp only [Bool.false_eq_true, false_and, if_false, hsize] at hcopy
    split at hcopy
    · rename_i hneg
      exact Or.inr (by omega)
    · cases hcopy

theorem copyFiles_lens {host : MkimageHost} {files : List (List UInt8)}
    {body : List UInt8} (hbody : copyFiles host false files = some body)
    (hlens : ∀ file ∈ files, file.length < 2 ^ 32) :
    ∀ file ∈ files, file.length < 2 ^ 31 ∨ file.length = 2 ^ 32 - 1 := by
  induction files generalizing body with
  | nil => exact fun file hfile => absurd hfile List.not_mem_nil
  | cons file files ih =>
      have hfile := hlens file List.mem_cons_self
      have hrest : ∀ f ∈ files, f.length < 2 ^ 32 :=
        fun f hf => hlens f (List.mem_cons_of_mem file hf)
      cases files with
      | nil =>
          intro f hf
          rw [List.mem_singleton.mp hf]
          rw [copyFiles] at hbody
          exact copyFile_lens hbody hfile
      | cons next files =>
          obtain ⟨bytes, rest, hcopy, hcopies, -⟩ := copyFiles_cons hbody
          intro f hf
          rcases List.mem_cons.mp hf with rfl | hf
          · exact copyFile_lens hcopy hfile
          · exact ih hcopies hrest f hf

/-- A file of 2 ^ 32 - 1 bytes leaves no room for another one. -/
theorem eq_singleton_of_length {files : List (List UInt8)} {file : List UInt8}
    (hfile : file ∈ files) (hlen : file.length = 2 ^ 32 - 1)
    (hnonempty : ∀ file ∈ files, file ≠ [])
    (htotal : (files.map List.length).sum < 2 ^ 32) : files = [file] := by
  match files, hfile with
  | [f], hfile => rw [List.mem_singleton.mp hfile]
  | f :: next :: rest, hfile =>
      exfalso
      have hf := List.length_pos_iff.mpr (hnonempty f List.mem_cons_self)
      have hnext := List.length_pos_iff.mpr (hnonempty next
        (List.mem_cons_of_mem f List.mem_cons_self))
      simp only [List.map_cons, List.sum_cons] at htotal
      rcases List.mem_cons.mp hfile with rfl | hfile
      · omega
      · have hle : file.length ≤ ((next :: rest).map List.length).sum :=
          List.le_sum_of_mem (List.mem_map_of_mem hfile)
        simp only [List.map_cons, List.sum_cons] at hle
        omega

/-- A file of 2 ^ 32 - 1 bytes is left out of the image without an error. -/
theorem copyFiles_minusOne {host : MkimageHost} {file : List UInt8}
    (hlen : file.length = 2 ^ 32 - 1) :
    copyFiles host false [file] = some [] := by
  have hge : 2 ^ 31 ≤ file.length := by omega
  have hlt : file.length < 2 ^ 32 := by omega
  have hsize : intOfWord (file.length + 2 ^ 32 - 0) = -1 := by
    rw [Nat.sub_zero, intOfWord_add, intOfWord_of_ge hge hlt]
    omega
  have hnone : (file.drop 0).take (Int.toNat (-1)) = [] := rfl
  unfold copyFiles copyFile
  simp only [Bool.false_eq_true, false_and, if_false, hsize, hnone]
  rfl

/-- The files of an image that are not too long are placed. -/
theorem placed_of_lens {host : MkimageHost} {files : List (List UInt8)}
    {image body : List UInt8} (hbody : copyFiles host false files = some body)
    (hdrop : image.drop (imageHeaderSize + 4 * (files.length + 1)) = body)
    (hlens : ∀ file ∈ files, file.length < 2 ^ 31) : Placed files image := by
  intro k hk
  rw [partOffset, ← List.drop_drop, hdrop]
  exact copyFiles_part hbody hlens hk

/-- The readers delimit the parts of an image of `mkimage` exactly when no file
has 2 ^ 32 - 1 bytes and, in an image that is not compressed, the part number
of `imxtract` is below 2 ^ 31. -/
theorem mkimage_partsDelimited_iff (opts : MkimageOptions) (host : MkimageHost)
    (files : List (List UInt8)) (image : List UInt8) (env : BootEnv)
    (mem : Memory UInt8) (addr : ℕ) (addrArg partArg : List UInt8)
    (rest : List (List UInt8)) (hmulti : opts.type = ihTypeMulti)
    (hxip : opts.xflag = false) (hfiles : files ≠ [])
    (hnonempty : ∀ file ∈ files, file ≠ [])
    (htotal : (files.map List.length).sum < 2 ^ 32)
    (himage : mkimage opts host files = some image)
    (hholds : mem.Holds addr image) (htop : addr + image.length ≤ 2 ^ 32)
    (haddr : (simpleStrtoul addrArg 16).1 = addr) :
    PartsDelimited opts files image env mem addr (addrArg :: partArg :: rest)
        (simpleStrtoul partArg 16).1 ↔
      (∀ file ∈ files, file.length ≠ 2 ^ 32 - 1) ∧
        ((simpleStrtoul partArg 16).1 < 2 ^ 31 ∨ opts.comp ≠ ihCompNone) := by
  obtain ⟨body, hbody, hdrop, hat⟩ := multiAt_of_mkimage hmulti hxip hnonempty
    htotal himage hholds htop
  have hargv : doImgextract env mem (addrArg :: partArg :: rest) =
      imgextract env mem addr (some (simpleStrtoul partArg 16).1)
        (rest[0]?.map fun arg => (simpleStrtoul arg 16).1) := by
    rw [← haddr]
    rfl
  have hword := simpleStrtoul_lt partArg 16
  constructor
  · intro hparts
    refine ⟨?_, ?_⟩
    · intro file hfile hlen
      have hsingle := eq_singleton_of_length hfile hlen hnonempty htotal
      subst hsingle
      rw [copyFiles_minusOne hlen, Option.some_inj] at hbody
      obtain ⟨p, -, file', hget, -, hbytes⟩ := hparts.kernel
      have hfile' : file = file' := by simpa using hget
      subst hfile'
      have hlength := congrArg List.length hbytes
      rw [partOffset, ← List.drop_drop, hdrop, ← hbody] at hlength
      simp only [List.drop_nil, List.take_nil, List.length_nil] at hlength
      omega
    · by_contra hneither
      rw [not_or, not_lt, not_not] at hneither
      exact hat.not_rejects env hargv hneither.1 hword hneither.2 hparts
  · rintro ⟨hne, hk⟩
    have hlens : ∀ file ∈ files, file.length < 2 ^ 31 := by
      intro file hfile
      exact (copyFiles_lens hbody hat.lens file hfile).resolve_right
        (hne file hfile)
    exact hat.partsDelimited hfiles (placed_of_lens hbody hdrop hlens) htop env
      hargv hk hword

/-- A kernel and an initrd. -/
def kernelAndInitrd : List (List UInt8) := [[1, 2, 3, 4, 5], [6, 7]]

/-- An image for this board that is not compressed. -/
def armOptions : MkimageOptions where
  addr := 0x80008000
  ep := 0x80008000
  os := ihOsLinux
  arch := ihCpuArm
  type := ihTypeMulti
  comp := ihCompNone
  name := text "kernel"
  xflag := false

/-- The image of the kernel and the initrd. -/
def kernelAndInitrdImage : List UInt8 :=
  (mkimage armOptions ⟨0, 0⟩ kernelAndInitrd).getD []

theorem mkimage_kernelAndInitrd :
    mkimage armOptions ⟨0, 0⟩ kernelAndInitrd = some kernelAndInitrdImage := by
  decide +kernel

theorem mkimage_partsDelimited_initrd :
    PartsDelimited armOptions kernelAndInitrd kernelAndInitrdImage
      ⟨none, none, 0⟩ (Memory.ofList 0 kernelAndInitrdImage) 0
      [text "0", text "1"] (simpleStrtoul (text "1") 16).1 :=
  (mkimage_partsDelimited_iff armOptions ⟨0, 0⟩ kernelAndInitrd
    kernelAndInitrdImage ⟨none, none, 0⟩ _ 0 (text "0") (text "1") [] rfl rfl
    (by decide) (by decide) (by decide) mkimage_kernelAndInitrd
    (Memory.holds_ofList 0 _) (by decide) (by decide)).mpr
    ⟨by decide, by decide⟩

/-- `imxtract 0 80000000` does not reject a part that is not there. -/
theorem not_partsDelimited_negative :
    ¬ PartsDelimited armOptions kernelAndInitrd kernelAndInitrdImage
      ⟨none, none, 0⟩ (Memory.ofList 0 kernelAndInitrdImage) 0
      [text "0", text "80000000"] (simpleStrtoul (text "80000000") 16).1 := by
  have htop : 0 + kernelAndInitrdImage.length ≤ 2 ^ 32 := by decide
  obtain ⟨body, -, -, hat⟩ := @multiAt_of_mkimage armOptions ⟨0, 0⟩
    kernelAndInitrd kernelAndInitrdImage _ 0 rfl rfl (by decide) (by decide)
    mkimage_kernelAndInitrd (Memory.holds_ofList 0 _) htop
  have hargv : doImgextract ⟨none, none, 0⟩
      (Memory.ofList 0 kernelAndInitrdImage) [text "0", text "80000000"] =
      imgextract ⟨none, none, 0⟩ (Memory.ofList 0 kernelAndInitrdImage) 0
        (some (simpleStrtoul (text "80000000") 16).1) none := rfl
  exact hat.not_rejects ⟨none, none, 0⟩ hargv (by decide) (by decide) rfl

end TateFirmware.Boot
