import TateFirmware.Nand.WriteRead

/-!
# What a command on a partition touches

`arg_off_size` cuts the size given to the size of the partition.  An erase stays
in that range.  A read or a write goes on behind bad blocks, so it leaves the
partition as soon as the good blocks of the partition do not hold the data and
there is a good block behind it.
-/

namespace TateFirmware.Nand

open LibGeneric Mtd Support

/-! ## The name of a partition -/

theorem str2long_eq_none {c : UInt8} {cs : List UInt8} (hzero : c ≠ ch '0')
    (hdigit : isxdigit c = false) : str2long (c :: cs) = none := by
  have hnumber : simpleStrtoul (c :: cs) 16 = (0, c :: cs) := by
    rw [simpleStrtoul, peek, if_neg hzero, if_neg (by decide : ¬16 = 0),
      strtoulLoop, hdigit, Bool.false_and, if_neg Bool.false_ne_true]
  rw [str2long, hnumber, if_neg (by simp)]

/-- The name of a partition starts with the type of its device. -/
theorem findDevAndPart_first {m : MtdState} {name : List UInt8}
    {found : MtdDevice × PartInfo} (h : findDevAndPart m name = some found) :
    ∃ cs, name = ch 'n' :: cs := by
  have hstart : startsWith name "nand" = true ∨ startsWith name "nor" = true := by
    by_contra hnot
    rw [not_or] at hnot
    rw [findDevAndPart, idParse, if_neg hnot.1, if_neg hnot.2] at h
    simp at h
  rcases hstart with hstart | hstart
  · obtain ⟨rest, hrest⟩ := List.isPrefixOf_iff_prefix.mp hstart
    exact ⟨_, hrest.symm⟩
  · obtain ⟨rest, hrest⟩ := List.isPrefixOf_iff_prefix.mp hstart
    exact ⟨_, hrest.symm⟩

/-- No partition has a name that is a number. -/
theorem str2long_of_findDevAndPart {m : MtdState} {name : List UInt8}
    {found : MtdDevice × PartInfo} (h : findDevAndPart m name = some found) :
    str2long name = none := by
  obtain ⟨cs, rfl⟩ := findDevAndPart_first h
  exact str2long_eq_none (by decide) (by decide)

theorem namedPart_eq {mtd : MtdState × ℕ} {name : List UInt8}
    {found : MtdDevice × PartInfo} (hinit : mtd.2 = 0)
    (h : findDevAndPart mtd.1 name = some found) :
    namedPart mtd name = some found := by
  rw [namedPart, if_pos ⟨by rw [str2long_of_findDevAndPart h]; rfl, hinit⟩, h]

/-- The size a command works on; `none` where the size given is no number. -/
def requested (part : PartInfo) : Option (List UInt8) → Option ℕ
  | none => some part.size
  | some size =>
      (str2long size).map fun size =>
        if part.size < size then part.size else size

theorem requested_le {part : PartInfo} {size : Option (List UInt8)} {len : ℕ}
    (h : requested part size = some len) : len ≤ part.size := by
  cases size with
  | none =>
      simp only [requested, Option.some.injEq] at h
      exact h.symm.le
  | some size =>
      simp only [requested, Option.map_eq_some_iff] at h
      obtain ⟨n, -, rfl⟩ := h
      split <;> omega

/-- The range of a command given a partition. -/
theorem argOffSize_part {mtd : MtdState × ℕ} {nandInfo : ℕ → NandInfo} {curr : ℕ}
    {name : List UInt8} {dev : MtdDevice} {part : PartInfo} (hinit : mtd.2 = 0)
    (hname : findDevAndPart mtd.1 name = some (dev, part))
    (hnand : dev.id.type = .nand) (size : Option (List UInt8)) :
    argOffSize mtd nandInfo curr (name :: size.toList) =
      (requested part size).map fun len =>
        ⟨part.offset, len, Function.update nandInfo curr (nandInfo dev.id.num)⟩ := by
  have hpart : (name :: size.toList).head?.bind (namedPart mtd) =
      some (dev, part) := by
    rw [List.head?_cons, Option.bind_some, namedPart_eq hinit hname]
  rw [argOffSize, hpart]
  simp only [hnand, List.tail_cons]
  cases size with
  | none => rfl
  | some size =>
      simp only [Option.toList_some, requested, Option.map_map]
      rfl

/-! ## Accesses in a partition -/

/-- The block of an address lies inside the partition.  Behind the end of the
device there is no block. -/
def Inside (info : NandInfo) (part : PartInfo) (addr : ℕ) : Prop :=
  addr < info.size →
    part.offset ≤ info.blockOf addr ∧
      info.blockOf addr + info.erasesize ≤ part.offset + part.size

/-- A partition of whole blocks in the device. -/
structure Fits (info : NandInfo) (part : PartInfo) : Prop where
  offset_dvd : info.erasesize ∣ part.offset
  size_dvd : info.erasesize ∣ part.size
  end_le : part.offset + part.size ≤ info.size

/-- What `part_validate` has checked. -/
theorem fits_of_partFits {flash : Flash} {id : MtdIds} {part : PartInfo}
    {info : NandInfo} (hfits : partFits flash id part = true)
    (hnand : id.type = .nand) (hword : part.size < 2 ^ 32)
    (herase : flash.eraseSize id.num = info.erasesize)
    (hsize : id.size = info.size) : Fits info part := by
  have hlt := id.size_lt
  unfold partFits at hfits
  rw [hnand] at hfits
  split_ifs at hfits with hoffset hwrap hend
  simp only [partValidateNand, herase, decide_eq_true_eq] at hfits
  refine ⟨Nat.dvd_of_mod_eq_zero hfits.1, Nat.dvd_of_mod_eq_zero hfits.2, ?_⟩
  omega

variable {info : NandInfo} {part : PartInfo}

theorem inside_of_addr (hfits : Fits info part) {addr : ℕ}
    (hle : part.offset ≤ addr) (hlt : addr < part.offset + part.size) :
    Inside info part addr := by
  have hend : info.erasesize ∣ part.offset + part.size :=
    Nat.dvd_add hfits.offset_dvd hfits.size_dvd
  have hstart : part.offset ≤ info.blockOf addr := by
    rw [← @blockOf_of_dvd info part.offset hfits.offset_dvd]
    exact Nat.mul_le_mul_right _ (Nat.div_le_div_right hle)
  have hblock : info.blockOf addr < part.offset + part.size :=
    (blockOf_le _).trans_lt hlt
  have hdvd : info.erasesize ∣ info.blockOf addr := dvd_blockOf _
  have hge := Nat.le_of_dvd (Nat.sub_pos_of_lt hblock) (Nat.dvd_sub hend hdvd)
  exact fun _ => ⟨hstart, by omega⟩

theorem not_inside {addr : ℕ} (hlt : addr < info.size)
    (hge : part.offset + part.size ≤ addr) : ¬Inside info part addr := by
  intro hin
  have hblock := (hin hlt).2
  have hend := @lt_blockOf_add info addr
  omega

/-! ## Erasing -/

theorem eraseLoop_addr {σ : Type*} {ops : NandOps σ} {bound : ℕ}
    {marker : Option (ℕ × ℕ)} {e n addr : ℕ} {device : σ}
    (hmarker : ∀ place ∈ marker, place.1 < info.erasesize)
    (hbound : bound ≤ e) (he : info.erasesize ∣ e) (hword : e ≤ 2 ^ 31)
    (haddr : info.erasesize ∣ addr) :
    ∀ a ∈ (eraseLoop info ops bound marker n addr device).accesses,
      addr ≤ a.addr ∧ a.addr < e := by
  induction n generalizing addr device with
  | zero => simp [eraseLoop]
  | succ n ih =>
      rw [eraseLoop]
      split
      · rename_i hlt
        have hend : addr + info.erasesize ≤ e := by
          have h := Nat.le_of_dvd (Nat.sub_pos_of_lt (hlt.trans_le hbound))
            (Nat.dvd_sub he haddr)
          omega
        have hmod : (addr + info.erasesize) % 2 ^ 32 = addr + info.erasesize :=
          Nat.mod_eq_of_lt (by omega)
        have hpos := info.erasesize_pos
        have hrest : ∀ device, ∀ a ∈ (eraseLoop info ops bound marker n
            (addr + info.erasesize) device).accesses,
            addr ≤ a.addr ∧ a.addr < e := by
          intro device a ha
          have h := ih (Nat.dvd_add haddr (dvd_refl _)) a ha
          exact ⟨by omega, h.2⟩
        simp only [hmod]
        split
        · exact hrest device
        · split
          · simp
          · split
            · rintro a (_ | ⟨_, ha⟩)
              · exact ⟨le_rfl, by simp only [Access.addr]; omega⟩
              · exact hrest _ a ha
            · cases marker with
              | none =>
                  rintro a (_ | ⟨_, ha⟩)
                  · exact ⟨le_rfl, by simp only [Access.addr]; omega⟩
                  · exact hrest _ a ha
              | some place =>
                  have hplace := hmarker place rfl
                  rintro a (_ | ⟨_, _ | ⟨_, ha⟩⟩)
                  · exact ⟨le_rfl, by simp only [Access.addr]; omega⟩
                  · simp only [Access.addr]
                    omega
                  · exact hrest _ a ha
      · simp

/-- The place of a clean marker is in the first page of its block. -/
theorem clmPlace_lt {place : ℕ × ℕ} (h : clmPlace info = some place) :
    place.1 < info.erasesize := by
  have hpage : 2 ^ info.pageShift ≤ info.erasesize :=
    Nat.pow_le_pow_right (by decide) info.page_le
  have hoob := info.oobsize_le
  have hpos := info.oobblock_pos
  unfold clmPlace at h
  cases hfree : info.oobfree with
  | some free =>
      have hlt := info.oobfree_lt free hfree
      rw [hfree] at h
      simp only at h
      split at h
      · exact absurd h (by simp)
      · simp only [Option.some.injEq] at h
        rw [← h]
        exact hlt.trans_le hpage
  | none =>
      rw [hfree] at h
      simp only at h
      rw [NandInfo.oobblock] at hpos
      split_ifs at h <;> simp only [Option.some.injEq] at h <;> rw [← h] <;>
        simp only <;> omega

/-- An erase in the range of a partition stays inside. -/
theorem nandEraseOpts_inside {σ : Type*} {ops : NandOps σ} {fuel len : ℕ}
    {device : σ} {clean : Bool} (hfits : Fits info part) (hlen : len ≤ part.size) :
    ∀ a ∈ (nandEraseOpts info ops ⟨len, part.offset, clean⟩ fuel device).accesses,
      Inside info part a.addr := by
  have hsize := info.size_le_int
  have hend := hfits.end_le
  have hbound : (part.offset + len) % 2 ^ 32 = part.offset + len :=
    Nat.mod_eq_of_lt (by omega)
  have hloop : ∀ marker : Option (ℕ × ℕ),
      (∀ place ∈ marker, place.1 < info.erasesize) →
      ∀ a ∈ (eraseLoop info ops (part.offset + len) marker fuel part.offset
        device).accesses, Inside info part a.addr := by
    intro marker hmarker a ha
    obtain ⟨hle, hlt⟩ := eraseLoop_addr hmarker
      (Nat.add_le_add_left hlen part.offset)
      (Nat.dvd_add hfits.offset_dvd hfits.size_dvd) (by omega)
      hfits.offset_dvd a ha
    exact inside_of_addr hfits hle hlt
  simp only [nandEraseOpts, hbound]
  split
  · cases hplace : clmPlace info with
    | none => simp
    | some place =>
        refine hloop (some place) ?_
        rintro _ ⟨⟩
        exact clmPlace_lt hplace
  · exact hloop none (by simp)

/-! ## Reading and writing -/

/-- The good blocks of the partition hold `len` bytes, or there is no good block
behind the partition. -/
def HoldsIn (info : NandInfo) (checkbad : ℤ → Bool) (part : PartInfo)
    (len : ℕ) : Prop :=
  len ≤ info.goodBlocks checkbad (part.offset / info.erasesize)
      (part.size / info.erasesize) * info.erasesize ∨
    ∀ b, part.offset + part.size ≤ b * info.erasesize → b < info.blocks →
      checkbad (b * info.erasesize : ℕ) = true

/-- The good pages from the start of a partition on: those inside, and those
behind. -/
theorem goodPages_part {checkbad : ℤ → Bool} (hfits : Fits info part) :
    ∃ pages, info.goodPages checkbad part.offset =
        pages ++ info.goodPages checkbad (part.offset + part.size) ∧
      pages.length * info.oobblock =
        info.goodBlocks checkbad (part.offset / info.erasesize)
          (part.size / info.erasesize) * info.erasesize ∧
      ∀ p ∈ pages, Inside info part p := by
  have hoffset := Nat.div_mul_cancel hfits.offset_dvd
  have hsize := Nat.div_mul_cancel hfits.size_dvd
  have hcount : part.offset / info.erasesize + part.size / info.erasesize ≤
      info.blocks := by
    refine Nat.le_of_mul_le_mul_right ?_ info.erasesize_pos
    rw [Nat.add_mul, hoffset, hsize]
    exact hfits.end_le
  obtain ⟨pages, hpages, hlength, hin⟩ :=
    @goodPages_blocks info checkbad _ _ hcount
  rw [Nat.add_mul, hoffset, hsize] at hpages hin
  refine ⟨pages, hpages, ?_, fun p hp => ?_⟩
  · rw [hlength, Nat.mul_assoc, ← info.erasesize_eq]
  · exact inside_of_addr hfits (hin p hp).1 (hin p hp).2

theorem goodPages_behind {checkbad : ℤ → Bool} (hfits : Fits info part) :
    info.goodPages checkbad (part.offset + part.size) = [] ↔
      ∀ b, part.offset + part.size ≤ b * info.erasesize → b < info.blocks →
        checkbad (b * info.erasesize : ℕ) = true := by
  have hdvd : info.erasesize ∣ part.offset + part.size :=
    Nat.dvd_add hfits.offset_dvd hfits.size_dvd
  obtain ⟨e, he⟩ := hdvd
  have hpos := info.erasesize_pos
  have hle : e ≤ info.blocks := by
    refine Nat.le_of_mul_le_mul_right ?_ hpos
    rw [Nat.mul_comm, ← he]
    exact hfits.end_le
  rw [he, Nat.mul_comm, goodPages_eq_nil_iff hle]
  refine forall_congr' fun b => ?_
  rw [Nat.mul_le_mul_right_iff hpos]

section Pages

variable {τ : Type*} {checkbad : ℤ → Bool} {fuel : ℕ}
  {page : τ → ℕ → ℤ → ℤ × ℤ × τ}

/-- The loop over the pages for `len` bytes from the start of the partition. -/
def partRun (info : NandInfo) (checkbad : ℤ → Bool) (part : PartInfo) (fuel : ℕ)
    (page : τ → ℕ → ℤ → ℤ × ℤ × τ) (len : ℕ) (state : τ) : PageRun τ :=
  pageRun info checkbad fuel page fuel noBlock part.offset
    (Int.bmod len (2 ^ 32)) state

/-- A run for data that fits in the good blocks stays inside. -/
theorem partRun_inside {len : ℕ} {state : τ} (hfits : Fits info part)
    (hlen : len ≤ part.size) (hpage : MovesPages info page)
    (hholds : HoldsIn info checkbad part len) :
    ∀ p ∈ (partRun info checkbad part fuel page len state).pages,
      Inside info part p := by
  cases fuel with
  | zero => exact fun p hp => absurd hp List.not_mem_nil
  | succ fuel =>
  have hend := hfits.end_le
  have hsize := info.size_le_int
  have hoffset : info.oobblock ∣ part.offset :=
    info.oobblock_dvd.trans hfits.offset_dvd
  obtain ⟨pages, hgood, hlength, hin⟩ := @goodPages_part info part checkbad hfits
  have hused := @pageRun_pages info checkbad τ fuel page (fuel + 1) noBlock
    part.offset (Int.bmod len (2 ^ 32)) state checked_noBlock hoffset
  intro p hp hlt
  have hmem : p ∈ (partRun info checkbad part (fuel + 1) page len
      state).pages.filter (· < info.size) :=
    List.mem_filter.mpr ⟨hp, by simpa using hlt⟩
  refine hin p ?_ hlt
  by_cases hbehind : info.goodPages checkbad (part.offset + part.size) = []
  · rw [hgood, hbehind, List.append_nil] at hused
    exact hused.subset hmem
  · have hfew : len ≤ info.goodBlocks checkbad (part.offset / info.erasesize)
        (part.size / info.erasesize) * info.erasesize :=
      hholds.resolve_right fun h => hbehind ((goodPages_behind hfits).mpr h)
    have hshort : part.offset + part.size < info.size := by
      by_contra hge
      exact hbehind (goodPages_of_ge (not_lt.mp hge))
    have hint : Int.bmod len (2 ^ 32) = len := by
      rw [Int.bmod_def]
      omega
    have hcount := @pageRun_length info checkbad τ fuel page (fuel + 1) noBlock
      part.offset len state hpage checked_noBlock (by omega) (by omega)
    rw [partRun, hint] at hmem
    rw [hint] at hused
    set run := pageRun info checkbad (fuel + 1) page (fuel + 1) noBlock
      part.offset len state
    have hle : run.pages.length ≤ pages.length := by
      rw [← hlength] at hfew
      have hmul : run.pages.length * info.oobblock <
          (pages.length + 1) * info.oobblock := by
        rw [Nat.succ_mul]
        have hcast : ((run.pages.length * info.oobblock : ℕ) : ℤ) <
            (len + info.oobblock : ℕ) := by exact_mod_cast hcount
        omega
      exact Nat.le_of_lt_succ (Nat.lt_of_mul_lt_mul_right hmul)
    have hfirst : run.pages.filter (· < info.size) <+: pages := by
      refine List.prefix_of_prefix_length_le hused ?_
        ((List.length_filter_le _ _).trans hle)
      rw [hgood]
      exact List.prefix_append _ _
    exact hfirst.subset hmem

/-- A run for data that does not fit in the good blocks leaves the partition
where there is a good block behind it and no operation fails. -/
theorem partRun_outside {len : ℕ} {state : τ} (hfits : Fits info part)
    (hlen : len ≤ part.size) (hpage : MovesPages info page)
    (hok : ∀ state m imglen, (page state m imglen).1 = 0)
    (hholds : ¬HoldsIn info checkbad part len) :
    ∃ fuel, ∃ p ∈ (partRun info checkbad part fuel page len state).pages,
      ¬Inside info part p := by
  have hend := hfits.end_le
  have hsize := info.size_le_int
  have hoffset : info.oobblock ∣ part.offset :=
    info.oobblock_dvd.trans hfits.offset_dvd
  rw [HoldsIn, not_or, not_le, ← goodPages_behind hfits] at hholds
  obtain ⟨hmany, hbehind⟩ := hholds
  obtain ⟨pages, hgood, hlength, -⟩ := @goodPages_part info part checkbad hfits
  obtain ⟨q, rest, hq⟩ := List.exists_cons_of_ne_nil hbehind
  have hmem : q ∈ info.goodPages checkbad (part.offset + part.size) := by
    rw [hq]
    exact List.mem_cons_self
  obtain ⟨-, hge, hlt, -⟩ := mem_goodPages (Nat.dvd_add hoffset
    (info.oobblock_dvd.trans hfits.size_dvd)) hmem
  have hint : Int.bmod len (2 ^ 32) = len := by
    rw [Int.bmod_def]
    omega
  refine ⟨info.blocks + pages.length + 1, q, ?_, not_inside hlt hge⟩
  have hpos := info.oobblock_pos
  have hstart : part.offset < info.size := by omega
  rw [hq] at hgood
  rw [partRun, hint]
  refine pageRun_reaches hpage hok (by omega) (checked_noBlock hstart) hoffset
    hgood (by omega) (by omega) ?_
  rw [← hlength] at hmany
  exact_mod_cast hmany

end Pages

/-! ## The commands -/

/-- A command on a partition, with the address of the memory as it is given. -/
inductive PartCommand where
  | erase (clean : Bool)
  | read (addr : List UInt8)
  | write (addr : List UInt8)

/-- The arguments of the command, with the size where one is given. -/
def PartCommand.argv (name : List UInt8) (size : Option (List UInt8)) :
    PartCommand → List (List UInt8)
  | .erase true => text "erase" :: text "clean" :: name :: size.toList
  | .erase false => text "erase" :: name :: size.toList
  | .read addr => text "read.jffs2" :: addr :: name :: size.toList
  | .write addr => text "write.jffs2" :: addr :: name :: size.toList

/-- What the command does in its range. -/
def PartCommand.run {σ : Type*} (ops : NandOps σ) (memory : Memory UInt8)
    (fuel : ℕ) (device : σ) (range : OffSize) (curr : ℕ) :
    PartCommand → CommandRun σ
  | .erase clean => doNandErase ops fuel device clean range curr
  | .read _ => doNandRead ops fuel device range curr
  | .write addr =>
      doNandWrite ops memory fuel device (simpleStrtoul addr 16).1 range curr

section Commands

variable {mtd : MtdState × ℕ} {nandInfo : ℕ → NandInfo} {curr : ℕ}
  {name : List UInt8} {dev : MtdDevice}

theorem doNand_part {σ : Type*} {ops : NandOps σ} {memory : Memory UInt8}
    {fuel : ℕ} {device : σ} (hinit : mtd.2 = 0)
    (hname : findDevAndPart mtd.1 name = some (dev, part))
    (hnand : dev.id.type = .nand) (command : PartCommand)
    (size : Option (List UInt8)) :
    doNand ops memory fuel device mtd nandInfo curr (command.argv name size) =
      some (match requested part size with
        | none => ⟨some 1, device, [], []⟩
        | some len =>
            command.run ops memory fuel device ⟨part.offset, len,
              Function.update nandInfo curr (nandInfo dev.id.num)⟩ curr) := by
  have hrange := @argOffSize_part mtd nandInfo curr name dev part hinit hname
    hnand size
  have hnotclean : (some name = some (text "clean")) = False := by
    obtain ⟨cs, rfl⟩ := findDevAndPart_first hname
    simp [text, ch]
  cases command with
  | erase clean =>
      cases clean with
      | true =>
          rw [PartCommand.argv, doNand, if_pos rfl]
          simp only [List.head?_cons, decide_true, if_true, List.tail_cons,
            hrange]
          cases requested part size <;> rfl
      | false =>
          rw [PartCommand.argv, doNand.eq_def]
          simp only [List.head?_cons, hnotclean, decide_false, if_true,
            if_false, hrange]
          cases requested part size <;> rfl
  | read addr =>
      rw [PartCommand.argv, doNand, if_neg (by decide), if_pos (by decide)]
      simp only [hrange]
      cases requested part size with
      | none => rfl
      | some len =>
          simp only [Option.map_some]
          rw [if_neg (by decide), if_pos (by decide)]
          rfl
  | write addr =>
      rw [PartCommand.argv, doNand, if_neg (by decide), if_pos (by decide)]
      simp only [hrange]
      cases requested part size with
      | none => rfl
      | some len =>
          simp only [Option.map_some]
          rw [if_neg (by decide), if_neg (by decide)]
          rfl

/-- A read that is a success returns a whole page. -/
def FullReads {σ : Type*} (info : NandInfo) (ops : NandOps σ) : Prop :=
  ∀ device p, (ops.read device p).1 = 0 →
    (ops.read device p).2.length = info.oobblock

/-- Whatever the device does, the command touches blocks of the partition
only. -/
def StaysInside (mtd : MtdState × ℕ) (nandInfo : ℕ → NandInfo) (curr : ℕ)
    (checkbad : ℤ → Bool) (dev : MtdDevice) (part : PartInfo)
    (argv : List (List UInt8)) : Prop :=
  ∀ (σ : Type) (ops : NandOps σ) (memory : Memory UInt8) (fuel : ℕ) (device : σ)
    (run : CommandRun σ), ops.checkbad = checkbad →
    FullReads (nandInfo dev.id.num) ops →
    doNand ops memory fuel device mtd nandInfo curr argv = some run →
      ∀ a ∈ run.accesses, Inside (nandInfo dev.id.num) part a.addr

/-- The condition on a command with `len` bytes. -/
def PartCommand.Safe (info : NandInfo) (checkbad : ℤ → Bool) (part : PartInfo)
    (len : ℕ) : PartCommand → Prop
  | .erase _ => True
  | .read _ | .write _ => info.knownPage = false ∨ HoldsIn info checkbad part len

theorem movesPages_write {σ : Type*} {ops : NandOps σ} (buffer : Memory UInt8)
    (length offset : ℕ) :
    MovesPages info (writePage info ops (writeJffs2 buffer length offset)) := by
  intro state m imglen _ _ _
  exact writeLength_eq imglen

theorem movesPages_read {σ : Type*} {ops : NandOps σ} {device : σ}
    (hreads : FullReads info ops) : MovesPages info (readPage ops device) := by
  intro bytes m imglen hpos hint hok
  have hfull := hreads device m
  have hmod : imglen % 2 ^ 32 = imglen := Int.emod_eq_of_lt hpos.le (by omega)
  rw [readPage] at hok ⊢
  cases hread : ops.read device m with
  | mk result dataBuf =>
      rw [hread] at hok hfull
      simp only [hmod] at hok hfull ⊢
      split
      · rename_i hfail
        rw [if_pos hfail] at hok
        exact absurd hok hfail
      · rename_i hresult
        rw [not_ne_iff] at hresult
        rw [hfull hresult]
        split <;> simp only <;> omega

/-- The operations of a command in its range. -/
theorem PartCommand.run_inside {σ : Type*} {ops : NandOps σ}
    {memory : Memory UInt8} {fuel len curr : ℕ} {device : σ} {table : ℕ → NandInfo}
    (htable : table curr = info) (hfits : Fits info part)
    (hlen : len ≤ part.size) (hreads : FullReads info ops)
    {command : PartCommand} (hsafe : command.Safe info ops.checkbad part len) :
    ∀ a ∈ (command.run ops memory fuel device ⟨part.offset, len, table⟩
      curr).accesses, Inside info part a.addr := by
  cases command with
  | erase clean =>
      simp only [PartCommand.run, doNandErase, htable]
      exact nandEraseOpts_inside hfits hlen
  | read addr =>
      simp only [PartCommand.run, doNandRead, htable, nandReadOpts]
      split
      · simp
      · rename_i hknown
        split
        · simp
        · have hin := @partRun_inside info part _ ops.checkbad fuel
            (readPage ops device) len [] hfits hlen (movesPages_read hreads)
            (hsafe.resolve_left (by simpa using hknown))
          rw [partRun, pageRun] at hin
          split <;> simpa [Access.addr] using hin
  | write addr =>
      simp only [PartCommand.run, doNandWrite, htable, nandWriteOpts_eq]
      split
      · simp
      · rename_i hknown
        split
        · simp
        · have hin := @partRun_inside info part _ ops.checkbad fuel
            (writePage info ops (writeJffs2
              (memory.shift (simpleStrtoul addr 16).1) len part.offset)) len
            (device, 0) hfits hlen (movesPages_write _ _ _)
            (hsafe.resolve_left (by simpa using hknown))
          simpa [Access.addr, partRun, writeRun] using hin

/-- A device on which nothing fails. -/
def neverFails (info : NandInfo) (checkbad : ℤ → Bool) : NandOps Unit where
  checkbad := checkbad
  erase _ _ := (0, ())
  writeOob _ _ _ := (0, ())
  write _ _ _ := (0, ())
  read _ _ := (0, List.replicate info.oobblock 0xFF)

/-- Where data does not fit in a partition there is room behind it. -/
theorem end_lt_of_not_holdsIn {checkbad : ℤ → Bool} {len : ℕ}
    (h : ¬HoldsIn info checkbad part len) :
    part.offset + part.size < info.size := by
  rw [HoldsIn, not_or] at h
  by_contra hge
  refine h.2 fun b hle hlt => ?_
  have hblock : b * info.erasesize < info.size :=
    Nat.mul_lt_mul_of_pos_right hlt info.erasesize_pos
  omega

theorem not_tooLong {len offset : ℕ} (h : offset + len < info.size) :
    info.tooLong (Int.bmod len (2 ^ 32)) offset = false := by
  have hsize := info.size_le_int
  have hle : len / info.oobblock * info.oobblock ≤ len := Nat.div_mul_le_self _ _
  have hrest : (info.size + 2 ^ 32 - offset) % 2 ^ 32 = info.size - offset := by
    omega
  rw [bmod_length (by omega), NandInfo.tooLong, hrest, ← Int.ofNat_tdiv]
  refine decide_eq_false ?_
  rw [not_lt]
  norm_cast
  rw [Nat.mod_eq_of_lt (by omega)]
  omega

/-- A read or a write that the good blocks do not hold leaves the partition. -/
theorem PartCommand.run_outside {memory : Memory UInt8} {len curr : ℕ}
    {checkbad : ℤ → Bool} {table : ℕ → NandInfo} (htable : table curr = info)
    (hfits : Fits info part) (hlen : len ≤ part.size) {command : PartCommand}
    (hbreaks : ¬command.Safe info checkbad part len) :
    ∃ fuel, ∃ a ∈ (command.run (neverFails info checkbad) memory fuel ()
      ⟨part.offset, len, table⟩ curr).accesses, ¬Inside info part a.addr := by
  cases command with
  | erase clean => exact absurd trivial hbreaks
  | read addr =>
      rw [PartCommand.Safe, not_or, Bool.not_eq_false] at hbreaks
      obtain ⟨hknown, hholds⟩ := hbreaks
      have hend := end_lt_of_not_holdsIn hholds
      have hok : ∀ state m imglen,
          (readPage (neverFails info checkbad) () state m imglen).1 = 0 := by
        intro state m imglen
        have hread : (neverFails info checkbad).read () m =
            (0, List.replicate info.oobblock 0xFF) := rfl
        rw [readPage, hread]
        simp only [ne_eq, not_true_eq_false, if_false]
        split <;> rfl
      obtain ⟨fuel, p, hp, hout⟩ := @partRun_outside info part _ checkbad
        (readPage (neverFails info checkbad) ()) len [] hfits hlen
        (movesPages_read fun _ _ _ => List.length_replicate ..) hok hholds
      refine ⟨fuel, .read p, ?_, hout⟩
      simp only [PartCommand.run, doNandRead, htable, nandReadOpts]
      rw [if_neg (by simp [hknown]), if_neg (by rw [not_tooLong (by omega)]; simp)]
      rw [partRun, pageRun] at hp
      split <;> exact List.mem_map_of_mem hp
  | write addr =>
      rw [PartCommand.Safe, not_or, Bool.not_eq_false] at hbreaks
      obtain ⟨hknown, hholds⟩ := hbreaks
      have hend := end_lt_of_not_holdsIn hholds
      obtain ⟨fuel, p, hp, hout⟩ := @partRun_outside info part _ checkbad
        (writePage info (neverFails info checkbad) (writeJffs2
          (memory.shift (simpleStrtoul addr 16).1) len part.offset)) len ((), 0)
        hfits hlen (movesPages_write _ _ _) (fun _ _ _ => rfl) hholds
      refine ⟨fuel, .write p, ?_, hout⟩
      simp only [PartCommand.run, doNandWrite, htable, nandWriteOpts_eq]
      rw [if_neg (by simp [hknown]), if_neg (by rw [not_tooLong (by omega)]; simp)]
      rw [partRun, pageRun] at hp
      exact List.mem_map_of_mem hp

/-- A command on a partition of a NAND device stays inside the partition exactly
if it erases, or the good blocks of the partition hold the size it works on, or
there is no good block behind the partition, or the loops are not made for the
pages of the device. -/
theorem staysInside_iff {flash : Flash} (hinit : mtd.2 = 0)
    (hname : findDevAndPart mtd.1 name = some (dev, part))
    (hnand : dev.id.type = .nand) (hvalid : partFits flash dev.id part = true)
    (hword : part.size < 2 ^ 32)
    (herase : flash.eraseSize dev.id.num = (nandInfo dev.id.num).erasesize)
    (hsize : dev.id.size = (nandInfo dev.id.num).size) (checkbad : ℤ → Bool)
    (command : PartCommand) (size : Option (List UInt8)) :
    StaysInside mtd nandInfo curr checkbad dev part (command.argv name size) ↔
      ∀ len, requested part size = some len →
        command.Safe (nandInfo dev.id.num) checkbad part len := by
  have hfits : Fits (nandInfo dev.id.num) part :=
    fits_of_partFits hvalid hnand hword herase hsize
  have htable : Function.update nandInfo curr (nandInfo dev.id.num) curr =
      nandInfo dev.id.num := Function.update_self ..
  constructor
  · intro hstays len hlen
    by_contra hbreaks
    obtain ⟨fuel, a, ha, hout⟩ := @PartCommand.run_outside _ part (fun _ => 0)
      len curr checkbad _ htable hfits (requested_le hlen) command hbreaks
    refine hout (hstays Unit (neverFails _ checkbad) (fun _ => 0) fuel () _ rfl
      (fun _ _ _ => List.length_replicate ..) ?_ a ha)
    rw [doNand_part hinit hname hnand, hlen]
  · rintro hsafe σ ops memory fuel device run rfl hreads hrun
    rw [doNand_part hinit hname hnand, Option.some.injEq] at hrun
    cases hlen : requested part size with
    | none =>
        rw [hlen] at hrun
        rw [← hrun]
        simp
    | some len =>
        rw [hlen] at hrun
        rw [← hrun]
        exact PartCommand.run_inside htable hfits (requested_le hlen) hreads
          (hsafe len hlen)

end Commands

/-! ## Two small partitions -/

/-- A chip of one megabyte in blocks of four kilobytes. -/
def megabyte : NandInfo where
  oobsize := 8
  pageShift := 8
  eraseShift := 12
  blocks := 256
  oobfree := none
  oobsize_le := fourBlocks.oobsize_le
  oobfree_lt := fourBlocks.oobfree_lt
  page_le := fourBlocks.page_le
  erase_le := fourBlocks.erase_le
  size_le := by decide

/-- The partitions of it, two blocks each. -/
def twoParts : MtdState × ℕ :=
  mtdpartsInit smallNand smallIds (.start 0) (text "mtdparts=m:8k(a),8k(b)")

def partA : PartInfo := ⟨0, text "a", false, 8192, 0, 0⟩

def partsDevice : MtdDevice where
  addr := 2
  id := ⟨.nand, 0, 2 ^ 20, mebibyte_lt, text "m"⟩
  numParts := 2
  parts := [partA, ⟨1, text "b", false, 8192, 8192, 0⟩]

theorem findDevAndPart_partA :
    findDevAndPart twoParts.1 (text "nand0,0") = some (partsDevice, partA) := by
  decide

theorem staysInside_iff_partA :
    StaysInside twoParts (fun _ => megabyte) 0 (fun ofs => ofs = 0) partsDevice
        partA (PartCommand.argv (text "nand0,0") (some (text "1000"))
          (.write (text "0"))) ↔
      ∀ len, requested partA (some (text "1000")) = some len →
        (PartCommand.write (text "0")).Safe megabyte (fun ofs => ofs = 0) partA
          len :=
  @staysInside_iff partA twoParts (fun _ => megabyte) 0 (text "nand0,0")
    partsDevice smallNand (by decide) findDevAndPart_partA rfl
    (by decide) (by decide) rfl rfl (fun ofs => ofs = 0)
    (.write (text "0")) (some (text "1000"))

/-- With the first block of the first partition bad, what is written to the
partition goes on in the second one. -/
theorem not_staysInside :
    ¬StaysInside twoParts (fun _ => megabyte) 0 (fun ofs => ofs = 0) partsDevice
      partA (PartCommand.argv (text "nand0,0") none (.write (text "0"))) := by
  intro hstays
  have hrun : ∃ run, doNand (neverFails megabyte fun ofs => ofs = 0) (fun _ => 0)
      40 () twoParts (fun _ => megabyte) 0
      (PartCommand.argv (text "nand0,0") none (.write (text "0"))) = some run ∧
      Access.write 8192 ∈ run.accesses := by
    have hany : (doNand (neverFails megabyte fun ofs => ofs = 0) (fun _ => 0)
        40 () twoParts (fun _ => megabyte) 0
        (PartCommand.argv (text "nand0,0") none (.write (text "0")))).any
        (fun run => Access.write 8192 ∈ run.accesses) = true := by
      decide
    obtain ⟨run, hrun, hmem⟩ := Option.any_eq_true _ _ |>.mp hany
    exact ⟨run, hrun, by simpa using hmem⟩
  obtain ⟨run, hrun, hmem⟩ := hrun
  have hin := hstays Unit _ _ 40 () run rfl
    (fun _ _ _ => List.length_replicate ..) hrun _ hmem
  exact absurd (hin (by decide)).2 (by decide)

end TateFirmware.Nand
