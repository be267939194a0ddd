import Mathlib.Logic.Function.Basic
import TateFirmware.Nand.Command
import TateFirmware.Nand.GoodPages

/-!
# What is written is read back

`nand_read_opts` skips bad blocks in the same way as `nand_write_opts` does, so
it comes to the same pages in the same order.  A page that has been written is
behind all the pages written before it, which therefore stay as they are.
-/

namespace TateFirmware.Nand

open Support

/-- A device whose page reads return what page writes stored. -/
structure PageStore (info : NandInfo) (σ : Type*) extends NandOps σ where
  /-- A page is written inside the device only. -/
  write_lt : ∀ device p data device', write device p data = (0, device') →
    p < info.size
  read_write : ∀ device p data device', info.oobblock ∣ p →
    data.length = info.oobblock → write device p data = (0, device') →
      read device' p = (0, data)
  read_write_ne : ∀ device p data device' q, info.oobblock ∣ p →
    info.oobblock ∣ q → q ≠ p → write device p data = (0, device') →
      read device' q = read device q

/-! ## One page -/

section OnePage

variable {info : NandInfo} {buffer : Memory UInt8} {length offset : ℕ}

theorem writeLength_eq (imglen : ℤ) :
    writeLength info (writeJffs2 buffer length offset) imglen =
      min imglen info.oobblock := by
  unfold writeLength writeJffs2
  simp only [true_and]
  split <;> omega

theorem pageData_eq (pos : ℕ) (imglen : ℤ) :
    pageData info (writeJffs2 buffer length offset) pos imglen =
      buffer.read pos (min imglen info.oobblock).toNat ++
        List.replicate
          (info.oobblock - (min imglen info.oobblock).toNat) 0xFF := by
  rw [pageData, writeLength_eq]
  rfl

theorem pageData_length (pos : ℕ) {imglen : ℤ} :
    (pageData info (writeJffs2 buffer length offset) pos imglen).length =
      info.oobblock := by
  rw [pageData_eq, List.length_append, Memory.read_length,
    List.length_replicate]
  omega

/-- What the reader takes of a page is what the writer had for it. -/
theorem readPage_pageData {σ : Type*} {ops : NandOps σ} {device : σ} {m pos : ℕ}
    {imglen : ℤ} (hpos : 0 < imglen) (hint : imglen < 2 ^ 31)
    (hread : ops.read device m =
      (0, pageData info (writeJffs2 buffer length offset) pos imglen))
    (bytes : List UInt8) :
    readPage ops device bytes m imglen =
      (0, min imglen info.oobblock,
        bytes ++ buffer.read pos (min imglen info.oobblock).toNat) := by
  have hmod : imglen % 2 ^ 32 = imglen := Int.emod_eq_of_lt hpos.le (by omega)
  rw [readPage, hread]
  simp only [ne_eq, not_true_eq_false, if_false, hmod, pageData_length]
  split
  · rename_i hlt
    rw [min_eq_left hlt.le, pageData_eq, min_eq_left hlt.le,
      List.take_left' (Memory.read_length ..)]
  · rename_i hge
    rw [not_lt] at hge
    rw [min_eq_right hge, pageData_eq, min_eq_right hge, Int.toNat_natCast,
      Nat.sub_self, List.replicate_zero, List.append_nil]

end OnePage

/-! ## The two loops -/

section Lockstep

variable {info : NandInfo} {fuel : ℕ} {σ : Type*} (dev : PageStore info σ)
  {buffer : Memory UInt8} {length offset : ℕ}

/-- What one successful write does. -/
theorem stored_page {bs m bs' m' pos : ℕ} {imglen : ℤ} {device device' : σ}
    (hm : m < info.size) (hbs : Checked info dev.checkbad bs m)
    (hdvd : info.oobblock ∣ m)
    (hskip : skipBad info dev.checkbad info.erasesize info.erasesize (fuel + 1)
      (fuel + 1) bs m = .found bs' m')
    (hwrite : dev.write device m' (pageData info
      (writeJffs2 buffer length offset) pos imglen) = (0, device')) :
    NextGood info dev.checkbad m m' ∧ bs' = info.blockOf m' ∧
      dev.read device' m' = (0, pageData info
        (writeJffs2 buffer length offset) pos imglen) ∧
      ∀ p, info.oobblock ∣ p → p < m →
        dev.read device' p = dev.read device p := by
  have hin := dev.write_lt device m' _ device' hwrite
  rcases skipBad_found hm hbs hskip with ⟨hplace, hnext⟩ | ⟨hpast, -⟩
  · have hpage := hnext.oobblock_dvd hdvd
    refine ⟨hnext, hplace,
      dev.read_write device m' _ device' hpage (pageData_length pos) hwrite,
      fun p hp hlt => ?_⟩
    have hle := hnext.le
    exact dev.read_write_ne device m' _ device' p hpage hp (by omega) hwrite
  · exact absurd hin (not_lt.mpr hpast)

/-- The bytes of the next page and the bytes of the rest. -/
theorem read_append_min {pos page : ℕ} {imglen : ℤ} (hpos : 0 < imglen) :
    buffer.read pos (min imglen page).toNat ++
        buffer.read (pos + (min imglen page).toNat)
          (imglen - min imglen page).toNat =
      buffer.read pos imglen.toNat := by
  have hlen : imglen.toNat =
      (min imglen page).toNat + (imglen - min imglen page).toNat := by omega
  rw [hlen, Memory.read_add]

/-- A run of the writer that stores all of the image leaves the pages in front
alone, and the reader then takes the same way and finds the image. -/
theorem readRun_of_writeRun {n bs m : ℕ} {imglen : ℤ} {device : σ} {pos : ℕ}
    {run : PageRun (σ × ℕ)}
    (hrun : run = pageRun info dev.checkbad (fuel + 1)
      (writePage info dev.toNandOps (writeJffs2 buffer length offset)) n bs m
      imglen (device, pos))
    (hbs : m < info.size → Checked info dev.checkbad bs m)
    (hdvd : info.oobblock ∣ m) (hlen : 0 ≤ imglen) (hint : imglen < 2 ^ 31)
    (hended : run.status ≠ .running) (hall : run.imglen ≤ 0) :
    (∀ p, info.oobblock ∣ p → p < m →
      dev.read run.state.1 p = dev.read device p) ∧
    ∀ bytes, pageRun info dev.checkbad (fuel + 1)
        (readPage dev.toNandOps run.state.1) n bs m imglen bytes =
      ⟨.finished, 0, bytes ++ buffer.read pos imglen.toNat, run.pages⟩ := by
  induction n generalizing bs m imglen device pos run with
  | zero =>
      rw [hrun] at hended
      exact absurd rfl hended
  | succ n ih =>
      by_cases hgo : imglen ≠ 0 ∧ m < info.size
      · cases hskip : skipBad info dev.checkbad info.erasesize info.erasesize
          (fuel + 1) (fuel + 1) bs m with
        | running =>
            rw [hrun, pageRun, pageLoop, if_pos hgo, hskip] at hended
            exact absurd rfl hended
        | failed =>
            rw [hrun, pageRun, pageLoop, if_pos hgo, hskip] at hall
            simp only at hall
            omega
        | found bs' m' =>
            have hpos : 0 < imglen := by omega
            cases hwrite : dev.write device m' (pageData info
              (writeJffs2 buffer length offset) pos imglen) with
            | mk result device' =>
                have hpage : writePage info dev.toNandOps
                    (writeJffs2 buffer length offset) (device, pos) m' imglen =
                    (result, min imglen info.oobblock, device',
                      pos + (min imglen info.oobblock).toNat) := by
                  rw [writePage, hwrite, writeLength_eq]
                rw [pageRun_found hgo hskip hpage] at hrun
                by_cases hresult : result ≠ 0
                · rw [if_pos hresult] at hrun
                  rw [hrun] at hall
                  exact absurd hall (not_le.mpr hpos)
                · rw [if_neg hresult] at hrun
                  rw [not_ne_iff] at hresult
                  rw [hresult] at hwrite
                  have hstored := stored_page dev hgo.2 (hbs hgo.2) hdvd hskip
                    hwrite
                  obtain ⟨hnext, hplace, hread, hothers⟩ := hstored
                  have hoffset := next_offset
                    (hnext.lt.le.trans (Nat.le_add_right _ info.erasesize))
                  rw [hoffset] at hrun
                  set rest := pageRun info dev.checkbad (fuel + 1)
                    (writePage info dev.toNandOps
                      (writeJffs2 buffer length offset)) n bs'
                    (m' + info.oobblock)
                    (imglen - min imglen info.oobblock)
                    (device', pos + (min imglen info.oobblock).toNat) with hrest
                  have hpage_pos := info.oobblock_pos
                  rw [hrun] at hended hall ⊢
                  simp only [PageRun.cons_state, PageRun.cons_pages]
                  obtain ⟨hfront, hreader⟩ := ih hrest
                    (fun _ => hplace ▸ Checked.next hnext.good _)
                    (Nat.dvd_add (hnext.oobblock_dvd hdvd) (dvd_refl _))
                    (by omega) (by omega) hended hall
                  have hkept : dev.read rest.state.1 m' = dev.read device' m' :=
                    hfront m' (hnext.oobblock_dvd hdvd) (by omega)
                  refine ⟨fun p hp hlt => ?_, fun bytes => ?_⟩
                  · have hle := hnext.le
                    exact (hfront p hp (by omega)).trans
                      (hothers p hp (by omega))
                  · rw [pageRun_found hgo hskip (readPage_pageData hpos hint
                      (hkept.trans hread) bytes)]
                    rw [if_neg (by simp), hoffset, hreader, PageRun.cons,
                      List.append_assoc, read_append_min hpos]
      · rw [pageRun_stop hgo] at hrun
        rw [hrun] at hall ⊢
        have hzero : imglen = 0 := le_antisymm hall hlen
        refine ⟨fun p _ _ => rfl, fun bytes => ?_⟩
        rw [pageRun_stop hgo, hzero]
        simp [Memory.read]

end Lockstep

/-! ## The two functions -/

section Functions

variable {σ : Type*} (info : NandInfo) (ops : NandOps σ) (buffer : Memory UInt8)
  {length offset : ℕ}

/-- The loop of `nand write.jffs2`. -/
def writeRun (length offset fuel : ℕ) (device : σ) : PageRun (σ × ℕ) :=
  pageRun info ops.checkbad fuel
    (writePage info ops (writeJffs2 buffer length offset)) fuel
    noBlock offset (Int.bmod length (2 ^ 32)) (device, 0)

/-- A length below 2^31 is the same as an `int`. -/
theorem bmod_length {length : ℕ} (h : length < 2 ^ 31) :
    Int.bmod length (2 ^ 32) = length := by
  rw [Int.bmod_def]
  omega

theorem nandWriteOpts_eq (fuel : ℕ) (device : σ) :
    nandWriteOpts info ops (writeJffs2 buffer length offset) fuel device =
      if ¬info.knownPage then ⟨some (-1), device, []⟩
      else if info.tooLong (Int.bmod length (2 ^ 32)) offset then
        ⟨some (writeReturn (Int.bmod length (2 ^ 32))), device, []⟩
      else
        ⟨if (writeRun info ops buffer length offset fuel device).status = .running
          then none
          else some (writeReturn
            (writeRun info ops buffer length offset fuel device).imglen),
          (writeRun info ops buffer length offset fuel device).state.1,
          (writeRun info ops buffer length offset fuel device).pages⟩ := by
  have herase : info.erasesize * 1 % 2 ^ 32 = info.erasesize := by
    rw [Nat.mul_one]
    exact Nat.mod_eq_of_lt (info.erasesize_le.trans_lt (by decide))
  have halign : (if (writeJffs2 buffer length offset).blockalign = 0 then
      info.erasesize
    else info.erasesize * (writeJffs2 buffer length offset).blockalign %
      2 ^ 32) = info.erasesize := herase
  have hstep : info.erasesize / (writeJffs2 buffer length offset).blockalign =
      info.erasesize := Nat.div_one _
  have hpad : ¬(¬(writeJffs2 buffer length offset).pad = true ∧
      (Int.bmod (writeJffs2 buffer length offset).length (2 ^ 32)).tmod
        info.oobblock ≠ 0) := fun h => h.1 rfl
  rw [nandWriteOpts, halign, hstep]
  simp only [if_neg hpad]
  rfl

end Functions

section WriteRead

variable {info : NandInfo} {σ : Type*} (dev : PageStore info σ)
  (buffer : Memory UInt8) {length offset : ℕ}

theorem not_tooLong_zero (offset : ℕ) : info.tooLong 0 offset = false := by
  rw [NandInfo.tooLong, Int.zero_tdiv, Int.zero_mul, Int.zero_emod]
  exact decide_eq_false (by omega)

/-- The pages a run uses in the device are pages of good blocks. -/
theorem writeRun_good (hoffset : info.oobblock ∣ offset) (fuel : ℕ) (device : σ)
    {page : ℕ} (hpage : page ∈
      (writeRun info dev.toNandOps buffer length offset fuel device).pages)
    (hlt : page < info.size) : info.badAt dev.checkbad page = false := by
  cases fuel with
  | zero => exact absurd hpage List.not_mem_nil
  | succ fuel =>
      have hused : page ∈ (writeRun info dev.toNandOps buffer length offset (fuel + 1)
          device).pages.filter (· < info.size) :=
        List.mem_filter.mpr ⟨hpage, by simpa using hlt⟩
      have hgood := (pageRun_pages checked_noBlock hoffset).subset hused
      exact (mem_goodPages hoffset hgood).2.2.2

/-- The reader behind a writer that has stored the whole image. -/
theorem readRun_eq (hlength : length < 2 ^ 31) (hoffset : info.oobblock ∣ offset)
    {fuel : ℕ} {device : σ}
    (hended : (writeRun info dev.toNandOps buffer length offset fuel device).status ≠ .running)
    (hall : (writeRun info dev.toNandOps buffer length offset fuel device).imglen ≤ 0) :
    pageRun info dev.checkbad fuel (readPage dev.toNandOps
        (writeRun info dev.toNandOps buffer length offset fuel device).state.1) fuel noBlock
        offset length [] =
      ⟨.finished, 0, buffer.read 0 length,
        (writeRun info dev.toNandOps buffer length offset fuel device).pages⟩ := by
  have hint : Int.bmod length (2 ^ 32) = length := bmod_length hlength
  cases fuel with
  | zero => exact absurd rfl hended
  | succ fuel =>
      have hrun : writeRun info dev.toNandOps buffer length offset (fuel + 1) device =
          pageRun info dev.checkbad (fuel + 1)
            (writePage info dev.toNandOps (writeJffs2 buffer length offset))
            (fuel + 1) noBlock offset length (device, 0) := by
        rw [writeRun, hint]
      have hread := (readRun_of_writeRun dev hrun checked_noBlock hoffset
        (Int.natCast_nonneg _) (by exact_mod_cast hlength) hended hall).2 []
      rw [Int.toNat_natCast, List.nil_append] at hread
      exact hread

theorem readOpts_of_writeOpts (hlength : length < 2 ^ 31)
    (hoffset : info.oobblock ∣ offset) {fuel : ℕ} {device : σ}
    (hret : (nandWriteOpts info dev.toNandOps (writeJffs2 buffer length offset) fuel
      device).ret = some 0) :
    (nandReadOpts info dev.toNandOps ⟨length, offset⟩ fuel
        (nandWriteOpts info dev.toNandOps (writeJffs2 buffer length offset) fuel
          device).state).ret = some 0 ∧
      (nandReadOpts info dev.toNandOps ⟨length, offset⟩ fuel
        (nandWriteOpts info dev.toNandOps (writeJffs2 buffer length offset) fuel
          device).state).state = buffer.read 0 length := by
  have hint : Int.bmod length (2 ^ 32) = length := bmod_length hlength
  revert hret
  rw [nandWriteOpts_eq, hint]
  simp only [nandReadOpts, hint]
  split
  · simp
  · split
    · rename_i hlong
      intro hret
      have hpos : 0 < length := by
        refine Nat.pos_of_ne_zero fun hzero => ?_
        rw [hzero] at hlong
        exact absurd hlong (by simp [not_tooLong_zero])
      simp [writeReturn, hpos] at hret
    · intro hret
      simp only at hret
      split at hret
      · simp at hret
      · rename_i hended
        have hall : (writeRun info dev.toNandOps buffer length offset fuel
            device).imglen ≤ 0 := by
          simpa [writeReturn] using hret
        have hread := readRun_eq dev buffer hlength hoffset hended hall
        rw [pageRun] at hread
        simp [hread]

/-- What `nand write.jffs2` has written without an error, `nand read.jffs2` with
the same offset and length reads, and no page of a bad block has been written. -/
theorem nandReadOpts_nandWriteOpts (hlength : length < 2 ^ 31)
    (hoffset : info.oobblock ∣ offset) (fuel : ℕ) (device : σ) :
    ((nandWriteOpts info dev.toNandOps (writeJffs2 buffer length offset) fuel
        device).ret = some 0 →
      (nandReadOpts info dev.toNandOps ⟨length, offset⟩ fuel
        (nandWriteOpts info dev.toNandOps (writeJffs2 buffer length offset) fuel
          device).state).ret = some 0 ∧
      (nandReadOpts info dev.toNandOps ⟨length, offset⟩ fuel
        (nandWriteOpts info dev.toNandOps (writeJffs2 buffer length offset) fuel
          device).state).state = buffer.read 0 length) ∧
    ∀ page ∈ (nandWriteOpts info dev.toNandOps
        (writeJffs2 buffer length offset) fuel device).pages,
      page < info.size → info.badAt dev.checkbad page = false := by
  refine ⟨readOpts_of_writeOpts dev buffer hlength hoffset, ?_⟩
  rw [nandWriteOpts_eq]
  split
  · simp
  · split
    · simp
    · exact fun page hpage hlt => writeRun_good dev buffer hoffset fuel device hpage hlt

end WriteRead

/-! ## Pages that have to be erased -/

/-- A device whose pages store what is written into them while they are erased. -/
structure ErasedStore (info : NandInfo) (σ : Type*) extends NandOps σ where
  Erased : σ → ℕ → Prop
  /-- An erase that succeeds leaves the pages of its block erased. -/
  erase_erases : ∀ device b p, (erase device b).1 = 0 → b ≤ p →
    p < b + info.erasesize → Erased (erase device b).2 p
  erase_keeps : ∀ device b p, p < b → Erased device p → Erased (erase device b).2 p
  write_lt : ∀ device p data device', write device p data = (0, device') →
    p < info.size
  write_keeps : ∀ device p data q, q ≠ p → Erased device q →
    Erased (write device p data).2 q
  read_write : ∀ device p data device', info.oobblock ∣ p →
    data.length = info.oobblock → Erased device p →
      write device p data = (0, device') → read device' p = (0, data)
  read_write_ne : ∀ device p data device' q, info.oobblock ∣ p →
    info.oobblock ∣ q → q ≠ p → write device p data = (0, device') →
      read device' q = read device q

section Erased

variable {info : NandInfo} {σ : Type*} (dev : ErasedStore info σ)

open Classical in
/-- The device with the writes refused that go to a page that is not erased. -/
noncomputable def ErasedStore.strict : PageStore info σ where
  toNandOps := { dev.toNandOps with
    write := fun device p data =>
      if dev.Erased device p then dev.write device p data else (-1, device) }
  write_lt device p data device' hwrite := by
    by_cases herased : dev.Erased device p
    · exact dev.write_lt device p data device' (by simpa [herased] using hwrite)
    · simp [herased] at hwrite
  read_write device p data device' hp hlength hwrite := by
    by_cases herased : dev.Erased device p
    · exact dev.read_write device p data device' hp hlength herased
        (by simpa [herased] using hwrite)
    · simp [herased] at hwrite
  read_write_ne device p data device' q hp hq hne hwrite := by
    by_cases herased : dev.Erased device p
    · exact dev.read_write_ne device p data device' q hp hq hne
        (by simpa [herased] using hwrite)
    · simp [herased] at hwrite

/-- The addresses from an offset on are good, and in the device. -/
structure GoodArea (info : NandInfo) (checkbad : ℤ → Bool) (offset length : ℕ) :
    Prop where
  good : ∀ p, offset ≤ p → p < offset + length → info.badAt checkbad p = false
  le_size : offset + length ≤ info.size

/-- In a good area the search for a block stays where it is. -/
theorem skipBad_stays {checkbad : ℤ → Bool} {fuel bs m bs' m' length : ℕ}
    (harea : GoodArea info checkbad m length) (hlength : 0 < length)
    (h : skipBad info checkbad info.erasesize info.erasesize (fuel + 1) (fuel + 1) bs m =
      .found bs' m') : bs' = info.blockOf m ∧ m' = m := by
  have hle := harea.le_size
  have hsize := info.size_le_int
  have hgood := harea.good m le_rfl (by omega)
  cases fuel with
  | zero =>
      have hmask : maskDown info.erasesize m = info.blockOf m :=
        maskDown_erasesize (by omega)
      rw [skipBad, hmask] at h
      split_ifs at h with hplace
      · obtain ⟨rfl, rfl⟩ := Found.found.inj h
        exact ⟨hplace, rfl⟩
      · split at h <;> cases h
  | succ fuel =>
      rw [skipBad_good (by omega) hgood] at h
      obtain ⟨rfl, rfl⟩ := Found.found.inj h
      exact ⟨rfl, rfl⟩

/-- `nand_write_opts` without padding, as `saveenv` calls it. -/
def writePlain (buffer : Memory UInt8) (length offset : ℕ) : NandWriteOptions where
  buffer := buffer
  length := length
  offset := offset
  pad := false
  blockalign := 1

/-- What is behind the first page of a good area is one. -/
theorem GoodArea.behind {checkbad : ℤ → Bool} {m pages : ℕ}
    (h : GoodArea info checkbad m ((pages + 1) * info.oobblock)) :
    GoodArea info checkbad (m + info.oobblock) (pages * info.oobblock) := by
  have hlength : (pages + 1) * info.oobblock = pages * info.oobblock + info.oobblock :=
    Nat.succ_mul _ _
  have hle := h.le_size
  exact ⟨fun p hp hlt => h.good p (by omega) (by omega), by omega⟩

/-- A whole page is written in the same way with padding and without, and an erased one
is not refused. -/
theorem writePage_strict {device : σ} {m pos pages length offset : ℕ}
    (buffer : Memory UInt8) (herased : dev.Erased device m) :
    writePage info dev.toNandOps (writePlain buffer length offset) (device, pos) m
        ((pages + 1) * info.oobblock : ℕ) =
      writePage info dev.strict.toNandOps (writeJffs2 buffer length offset) (device, pos) m
        ((pages + 1) * info.oobblock : ℕ) := by
  have hlength : (pages + 1) * info.oobblock = pages * info.oobblock + info.oobblock :=
    Nat.succ_mul _ _
  have hplain : ∀ imglen,
      writeLength info (writePlain buffer length offset) imglen = info.oobblock :=
    fun imglen => if_neg fun h => Bool.noConfusion h.1
  have hpadded : writeLength info (writeJffs2 buffer length offset)
      ((pages + 1) * info.oobblock : ℕ) = info.oobblock := by
    rw [writeLength_eq, min_eq_right (by omega)]
  have hwrite : ∀ data, dev.strict.write device m data = dev.write device m data :=
    fun data => if_pos herased
  have hdata : pageData info (writePlain buffer length offset) pos
      ((pages + 1) * info.oobblock : ℕ) =
        pageData info (writeJffs2 buffer length offset) pos
          ((pages + 1) * info.oobblock : ℕ) := by
    simp only [pageData, hplain, hpadded]
    rfl
  simp only [writePage, hplain, hpadded, hwrite, hdata]

/-- Over erased pages of a good area no write is refused. -/
theorem writePages_strict {fuel n bs m pages pos length offset : ℕ}
    (buffer : Memory UInt8) {device : σ}
    (harea : GoodArea info dev.checkbad m (pages * info.oobblock))
    (herased : ∀ p, m ≤ p → p < m + pages * info.oobblock → dev.Erased device p) :
    pageRun info dev.checkbad (fuel + 1)
        (writePage info dev.toNandOps (writePlain buffer length offset)) n bs m
        (pages * info.oobblock : ℕ) (device, pos) =
      pageRun info dev.checkbad (fuel + 1)
        (writePage info dev.strict.toNandOps (writeJffs2 buffer length offset)) n bs m
        (pages * info.oobblock : ℕ) (device, pos) := by
  induction n generalizing bs m pages device pos with
  | zero => rfl
  | succ n ih =>
      have hpage := info.oobblock_pos
      cases pages with
      | zero => rw [pageRun_stop (by simp), pageRun_stop (by simp)]
      | succ pages =>
          have hlength : (pages + 1) * info.oobblock =
              pages * info.oobblock + info.oobblock := Nat.succ_mul _ _
          have hle := harea.le_size
          have hgo : (((pages + 1) * info.oobblock : ℕ) : ℤ) ≠ 0 ∧ m < info.size := by
            omega
          cases hskip : skipBad info dev.checkbad info.erasesize info.erasesize
            (fuel + 1) (fuel + 1) bs m with
          | running =>
              rw [pageRun, pageRun, pageLoop, pageLoop, if_pos hgo, if_pos hgo, hskip]
          | failed =>
              rw [pageRun, pageRun, pageLoop, pageLoop, if_pos hgo, if_pos hgo, hskip]
          | found bs' m' =>
              obtain ⟨rfl, rfl⟩ := skipBad_stays harea (by omega) hskip
              have hsame := @writePage_strict info σ dev device m' pos pages length offset
                buffer (herased m' le_rfl (by omega))
              have hrest : (((pages + 1) * info.oobblock : ℕ) : ℤ) - info.oobblock =
                  (pages * info.oobblock : ℕ) := by omega
              cases hwrite : dev.write device m' (pageData info
                (writePlain buffer length offset) pos
                ((pages + 1) * info.oobblock : ℕ)) with
              | mk result device' =>
                  have hkept : ∀ p, m' + info.oobblock ≤ p →
                      p < m' + info.oobblock + pages * info.oobblock →
                      dev.Erased device' p := by
                    intro p hp hlt
                    have herased' := dev.write_keeps device m' (pageData info
                      (writePlain buffer length offset) pos
                      ((pages + 1) * info.oobblock : ℕ)) p (by omega)
                      (herased p (by omega) (by omega))
                    rwa [hwrite] at herased'
                  have hplain : writePage info dev.toNandOps
                      (writePlain buffer length offset) (device, pos) m'
                      ((pages + 1) * info.oobblock : ℕ) =
                        (result, (info.oobblock : ℤ), device', pos + info.oobblock) := by
                    rw [writePage, hwrite]
                    rfl
                  rw [pageRun_found hgo hskip hplain,
                    pageRun_found hgo hskip (hsame.symm.trans hplain), hrest,
                    next_offset (by omega), ih harea.behind hkept]

theorem nandWriteOpts_plain (buffer : Memory UInt8) {length offset pages : ℕ}
    (hpages : length = pages * info.oobblock) (hlength : length < 2 ^ 31) (fuel : ℕ)
    {device : σ} (harea : GoodArea info dev.checkbad offset length)
    (herased : ∀ p, offset ≤ p → p < offset + length → dev.Erased device p) :
    nandWriteOpts info dev.toNandOps (writePlain buffer length offset) fuel device =
      nandWriteOpts info dev.strict.toNandOps (writeJffs2 buffer length offset) fuel
        device := by
  have hint : Int.bmod length (2 ^ 32) = length := bmod_length hlength
  have hwhole : ¬(¬(writePlain buffer length offset).pad = true ∧
      (Int.bmod (writePlain buffer length offset).length (2 ^ 32)).tmod
        info.oobblock ≠ 0) := by
    rintro ⟨-, hrest⟩
    refine hrest ?_
    change (Int.bmod length (2 ^ 32)).tmod info.oobblock = 0
    rw [hint, hpages, Nat.cast_mul]
    exact Int.mul_tmod_left _ _
  have herase : info.erasesize * 1 % 2 ^ 32 = info.erasesize := by
    rw [Nat.mul_one]
    exact Nat.mod_eq_of_lt (info.erasesize_le.trans_lt (by decide))
  have halign : (if (writePlain buffer length offset).blockalign = 0 then
      info.erasesize
    else info.erasesize * (writePlain buffer length offset).blockalign %
      2 ^ 32) = info.erasesize := herase
  have hstep : info.erasesize / (writePlain buffer length offset).blockalign =
      info.erasesize := Nat.div_one _
  have hrun : pageLoop info dev.checkbad info.erasesize info.erasesize fuel
      (writePage info dev.toNandOps (writePlain buffer length offset)) fuel noBlock offset
      length (device, 0) =
        writeRun info dev.strict.toNandOps buffer length offset fuel device := by
    rw [writeRun, hint]
    cases fuel with
    | zero => rfl
    | succ fuel =>
        subst hpages
        exact writePages_strict dev buffer harea herased
  rw [nandWriteOpts_eq, nandWriteOpts, halign, hstep]
  simp only [if_neg hwhole]
  rw [show (writePlain buffer length offset).length = length from rfl,
    show (writePlain buffer length offset).offset = offset from rfl, hint, hrun]

/-- What `nand_write_opts` has written without padding fills whole pages. -/
theorem writePlain_pages {ops : NandOps σ} {buffer : Memory UInt8} {length offset : ℕ}
    (hlength : length < 2 ^ 31) {fuel : ℕ} {device : σ}
    (hret : (nandWriteOpts info ops (writePlain buffer length offset) fuel
      device).ret = some 0) : ∃ pages, length = pages * info.oobblock := by
  have hint : Int.bmod length (2 ^ 32) = length := bmod_length hlength
  suffices hwhole : (length : ℤ).tmod info.oobblock = 0 by
    rw [← Int.dvd_iff_tmod_eq_zero, Int.natCast_dvd_natCast] at hwhole
    obtain ⟨pages, hpages⟩ := hwhole
    exact ⟨pages, hpages.trans (Nat.mul_comm _ _)⟩
  by_contra hrest
  have hpos : (0 : ℤ) < length := by
    rcases Nat.eq_zero_or_pos length with rfl | hpos
    · exact absurd (Int.zero_tmod _) hrest
    · exact_mod_cast hpos
  have hpart : ¬(writePlain buffer length offset).pad = true ∧
      (Int.bmod (writePlain buffer length offset).length (2 ^ 32)).tmod
        info.oobblock ≠ 0 := by
    rw [show (writePlain buffer length offset).length = length from rfl, hint]
    exact ⟨Bool.false_ne_true, hrest⟩
  rw [nandWriteOpts] at hret
  simp only [if_pos hpart] at hret
  rw [show (writePlain buffer length offset).length = length from rfl, hint,
    writeReturn, if_pos hpos] at hret
  split_ifs at hret <;> cases hret

/-- What `nand_write_opts` has stored in erased pages of a good area without an error,
`nand_read_opts` reads. -/
theorem nandReadOpts_writePlain (buffer : Memory UInt8) {length offset : ℕ}
    (hlength : length < 2 ^ 31) (hoffset : info.oobblock ∣ offset) (fuel : ℕ) {device : σ}
    (harea : GoodArea info dev.checkbad offset length)
    (herased : ∀ p, offset ≤ p → p < offset + length → dev.Erased device p)
    (hret : (nandWriteOpts info dev.toNandOps (writePlain buffer length offset) fuel
      device).ret = some 0) :
    (nandReadOpts info dev.toNandOps ⟨length, offset⟩ fuel
        (nandWriteOpts info dev.toNandOps (writePlain buffer length offset) fuel
          device).state).ret = some 0 ∧
      (nandReadOpts info dev.toNandOps ⟨length, offset⟩ fuel
        (nandWriteOpts info dev.toNandOps (writePlain buffer length offset) fuel
          device).state).state = buffer.read 0 length := by
  obtain ⟨pages, hpages⟩ := writePlain_pages hlength hret
  rw [nandWriteOpts_plain dev buffer hpages hlength fuel harea herased] at hret ⊢
  exact readOpts_of_writeOpts dev.strict buffer hlength hoffset hret

/-- The blocks that an area of so many bytes lies in, from their first one on. -/
def NandInfo.areaBlocks (info : NandInfo) (length : ℕ) : ℕ :=
  (length + info.erasesize - 1) / info.erasesize

/-- So many blocks are erased one after the other without a failure. -/
def ErasesBlocks (info : NandInfo) (ops : NandOps σ) : ℕ → ℕ → σ → Prop
  | 0, _, _ => True
  | count + 1, addr, device => (ops.erase device addr).1 = 0 ∧
      ErasesBlocks info ops count (addr + info.erasesize) (ops.erase device addr).2

/-- An area starts at a block; its blocks are good and take an erase. -/
structure ErasableArea (info : NandInfo) (ops : NandOps σ) (offset length : ℕ)
    (device : σ) : Prop where
  aligned : info.erasesize ∣ offset
  area : GoodArea info ops.checkbad offset (info.areaBlocks length * info.erasesize)
  erases : ErasesBlocks info ops (info.areaBlocks length) offset device

theorem length_le_areaBlocks (length : ℕ) :
    length ≤ info.areaBlocks length * info.erasesize := by
  have hpos := info.erasesize_pos
  have hdiv := Nat.div_add_mod (length + info.erasesize - 1) info.erasesize
  have hlt := Nat.mod_lt (length + info.erasesize - 1) hpos
  rw [NandInfo.areaBlocks, Nat.mul_comm]
  omega

theorem eraseLoop_erased {bound count addr n : ℕ} {device : σ}
    (hdvd : info.erasesize ∣ addr) (hbound : bound ≤ addr + count * info.erasesize)
    (harea : GoodArea info dev.checkbad addr (count * info.erasesize))
    (herases : ErasesBlocks info dev.toNandOps count addr device)
    (hret : (eraseLoop info dev.toNandOps bound none n addr device).ret = some 0)
    {p : ℕ} (hp : p < bound) (herased : p < addr → dev.Erased device p) :
    dev.Erased (eraseLoop info dev.toNandOps bound none n addr device).state p := by
  induction n generalizing count addr device with
  | zero => cases hret
  | succ n ih =>
      rw [eraseLoop] at hret ⊢
      by_cases hmore : addr < bound
      · cases count with
        | zero => omega
        | succ count =>
            have hpos := info.erasesize_pos
            have hsize := info.size_le_int
            have hcount : (count + 1) * info.erasesize =
                count * info.erasesize + info.erasesize := Nat.succ_mul _ _
            have hle := harea.le_size
            have hchecked : dev.checkbad addr = false := by
              have hgood := harea.good addr le_rfl (by omega)
              rwa [NandInfo.badAt, blockOf_of_dvd hdvd] at hgood
            have hnotBad : nandBlockIsbad info dev.checkbad addr = 0 := by
              rw [nandBlockIsbad_of_le (by omega), hchecked]
              rfl
            obtain ⟨hdone, hrest⟩ := herases
            cases herase : dev.erase device addr with
            | mk result device' =>
                rw [herase] at hdone hrest
                obtain rfl : result = 0 := hdone
                have hnext : (addr + info.erasesize) % 2 ^ 32 = addr + info.erasesize :=
                  Nat.mod_eq_of_lt (by omega)
                rw [if_pos hmore, hnotBad] at hret ⊢
                simp only [lt_self_iff_false, if_false, herase, ne_eq, not_true_eq_false,
                  hnext] at hret ⊢
                refine ih (Nat.dvd_add hdvd (dvd_refl _)) (by omega)
                  ⟨fun q hq hlt => harea.good q (by omega) (by omega), by omega⟩ hrest hret
                  fun hlt => ?_
                rcases Nat.lt_or_ge p addr with hin | hout
                · have hkept := dev.erase_keeps device addr p hin (herased hin)
                  rwa [herase] at hkept
                · have herased' := dev.erase_erases device addr p (by rw [herase]) hout hlt
                  rwa [herase] at herased'
      · rw [if_neg hmore]
        exact herased (by omega)

/-- `nand_erase_opts` leaves the pages of an erasable area erased. -/
theorem nandEraseOpts_erased {offset length fuel : ℕ} {device : σ}
    (harea : ErasableArea info dev.toNandOps offset length device)
    (hret : (nandEraseOpts info dev.toNandOps ⟨length, offset, false⟩ fuel device).ret =
      some 0) {p : ℕ} (hle : offset ≤ p) (hlt : p < offset + length) :
    dev.Erased (nandEraseOpts info dev.toNandOps ⟨length, offset, false⟩ fuel
      device).state p := by
  have hlength := @length_le_areaBlocks info length
  have hin := harea.area.le_size
  have hsize := info.size_le_int
  have hbound : (offset + length) % 2 ^ 32 = offset + length :=
    Nat.mod_eq_of_lt (by omega)
  simp only [nandEraseOpts, Bool.false_eq_true, if_false, hbound] at hret ⊢
  exact eraseLoop_erased dev harea.aligned (by omega) harea.area harea.erases hret hlt
    fun hfront => absurd hle (not_le.mpr hfront)

end Erased

/-! ## A device in memory -/

/-- A device that keeps its pages in a function. -/
def pageTable (info : NandInfo) (checkbad : ℤ → Bool) :
    PageStore info (ℕ → List UInt8) where
  checkbad := checkbad
  erase device _ := (0, device)
  writeOob device _ _ := (0, device)
  write device p data :=
    if p < info.size then (0, Function.update device p data) else (-22, device)
  read device p := (0, device p)
  write_lt := by
    intro device p data device' hwrite
    split at hwrite
    · assumption
    · simp at hwrite
  read_write := by
    intro device p data device' _ _ hwrite
    split at hwrite
    · simp only [Prod.mk.injEq, true_and] at hwrite
      rw [← hwrite, Function.update_self]
    · simp at hwrite
  read_write_ne := by
    intro device p data device' q _ _ hne hwrite
    split at hwrite
    · simp only [Prod.mk.injEq, true_and] at hwrite
      rw [← hwrite, Function.update_of_ne hne]
    · simp at hwrite

/-- A device whose pages are erased, or keep the ones that all writes since the last
erase had. -/
def erasableTable (info : NandInfo) (checkbad : ℤ → Bool) :
    ErasedStore info (ℕ → Option (List UInt8)) where
  checkbad := checkbad
  erase device b :=
    (0, fun p => if b ≤ p ∧ p < b + info.erasesize then none else device p)
  writeOob device _ _ := (0, device)
  write device p data :=
    if p < info.size then
      (0, Function.update device p
        (some ((device p).elim data fun old => List.zipWith (· &&& ·) old data)))
    else (-22, device)
  read device p := (0, (device p).getD (List.replicate info.oobblock 0xFF))
  Erased device p := device p = none
  erase_erases _ _ _ _ hle hlt := if_pos ⟨hle, hlt⟩
  erase_keeps device b p hlt herased := by
    change (if b ≤ p ∧ p < b + info.erasesize then none else device p) = none
    rw [herased, ite_self]
  write_lt device p data device' hwrite := by
    split_ifs at hwrite with hlt
    · exact hlt
    · simp at hwrite
  write_keeps device p data q hne herased := by
    split_ifs
    · simpa [Function.update_of_ne hne] using herased
    · exact herased
  read_write device p data device' _ _ herased hwrite := by
    split_ifs at hwrite
    · obtain rfl := congrArg Prod.snd hwrite
      simp [herased]
    · simp at hwrite
  read_write_ne device p data device' q _ _ hne hwrite := by
    split_ifs at hwrite
    · obtain rfl := congrArg Prod.snd hwrite
      simp [Function.update_of_ne hne]
    · simp at hwrite

/-- Four blocks of sixteen pages of 256 bytes. -/
def fourBlocks : NandInfo where
  oobsize := 8
  pageShift := 8
  eraseShift := 12
  blocks := 4
  oobfree := none
  oobsize_le := by decide
  oobfree_lt := by simp
  page_le := by decide
  erase_le := by decide
  size_le := by decide

/-- An image of seventeen pages written from the middle of a bad block on. -/
theorem nandReadOpts_nandWriteOpts_fourBlocks :
    (nandReadOpts fourBlocks
      (pageTable fourBlocks fun ofs => ofs = 4096).toNandOps ⟨4200, 4608⟩ 20
      (nandWriteOpts fourBlocks
        (pageTable fourBlocks fun ofs => ofs = 4096).toNandOps
        (writeJffs2 (fun _ => 7) 4200 4608) 20 fun _ => []).state).state =
      Memory.read (fun _ => 7) 0 4200 :=
  ((nandReadOpts_nandWriteOpts (pageTable fourBlocks fun ofs => ofs = 4096)
    (fun _ => 7) (by decide) (by decide) 20 fun _ => []).1
    (by decide)).2

end TateFirmware.Nand
