import Mathlib.Data.List.Range
import Mathlib.Tactic.Linarith
import Mathlib.Tactic.Positivity
import TateFirmware.Nand.Util

/-!
# The pages that are used

Whatever the loop over the pages does with a page, the pages of the device it
uses are the pages of good blocks from its start on, in order, and no more of
them than the image needs.
-/

namespace TateFirmware.Nand

section GoodPages

variable {info : NandInfo} {checkbad : ℤ → Bool}

/-! ## Pages of good blocks -/

/-- The pages from an offset to the end of the device. -/
def NandInfo.pagesFrom (info : NandInfo) (m : ℕ) : List ℕ :=
  (List.range' (m / info.oobblock)
    (info.size / info.oobblock - m / info.oobblock)).map (· * info.oobblock)

/-- Those of them in good blocks. -/
def NandInfo.goodPages (info : NandInfo) (checkbad : ℤ → Bool) (m : ℕ) :
    List ℕ :=
  (info.pagesFrom m).filter fun p => !info.badAt checkbad p

theorem oobblock_dvd_size : info.oobblock ∣ info.size :=
  info.oobblock_dvd.trans info.erasesize_dvd_size

/-- A page that starts before a page boundary ends there at the latest. -/
theorem page_add_le {m e : ℕ} (hdvd : info.oobblock ∣ m)
    (he : info.oobblock ∣ e) (hlt : m < e) : m + info.oobblock ≤ e := by
  have hle := Nat.le_of_dvd (Nat.sub_pos_of_lt hlt) (Nat.dvd_sub he hdvd)
  omega

theorem pagesFrom_of_ge {m : ℕ} (hm : info.size ≤ m) :
    info.pagesFrom m = [] := by
  have hle : info.size / info.oobblock ≤ m / info.oobblock :=
    Nat.div_le_div_right hm
  rw [NandInfo.pagesFrom, Nat.sub_eq_zero_of_le hle]
  rfl

theorem pagesFrom_cons {m : ℕ} (hdvd : info.oobblock ∣ m)
    (hm : m < info.size) :
    info.pagesFrom m = m :: info.pagesFrom (m + info.oobblock) := by
  have hlt : m / info.oobblock < info.size / info.oobblock := by
    rw [Nat.div_lt_iff_lt_mul info.oobblock_pos,
      Nat.div_mul_cancel oobblock_dvd_size]
    exact hm
  obtain ⟨n, hn⟩ := Nat.exists_eq_add_of_lt hlt
  rw [NandInfo.pagesFrom, NandInfo.pagesFrom,
    Nat.add_div_right m info.oobblock_pos,
    show info.size / info.oobblock - m / info.oobblock = n + 1 by omega,
    show info.size / info.oobblock - (m / info.oobblock + 1) = n by omega,
    List.range'_succ, List.map_cons, Nat.div_mul_cancel hdvd]

theorem goodPages_of_ge {m : ℕ} (hm : info.size ≤ m) :
    info.goodPages checkbad m = [] := by
  rw [NandInfo.goodPages, pagesFrom_of_ge hm, List.filter_nil]

theorem goodPages_good {m : ℕ} (hdvd : info.oobblock ∣ m) (hm : m < info.size)
    (hgood : info.badAt checkbad m = false) :
    info.goodPages checkbad m =
      m :: info.goodPages checkbad (m + info.oobblock) := by
  rw [NandInfo.goodPages, pagesFrom_cons hdvd hm,
    List.filter_cons_of_pos (by simp [hgood])]
  rfl

theorem goodPages_bad {m : ℕ} (hdvd : info.oobblock ∣ m) (hm : m < info.size)
    (hbad : info.badAt checkbad m = true) :
    info.goodPages checkbad m =
      info.goodPages checkbad (m + info.oobblock) := by
  rw [NandInfo.goodPages, pagesFrom_cons hdvd hm,
    List.filter_cons_of_neg (by simp [hbad])]
  rfl

/-- Induction over the pages from an offset to the end of the device. -/
theorem page_induction {P : ℕ → Prop}
    (past : ∀ m, info.size ≤ m → P m)
    (step : ∀ m, info.oobblock ∣ m → m < info.size →
      P (m + info.oobblock) → P m)
    {m : ℕ} (hdvd : info.oobblock ∣ m) : P m := by
  induction hk : info.size - m using Nat.strongRecOn generalizing m with
  | ind k ih =>
      rcases Nat.lt_or_ge m info.size with hm | hm
      · have hpos := info.oobblock_pos
        refine step m hdvd hm (ih (info.size - (m + info.oobblock)) (by omega)
          (Nat.dvd_add hdvd (dvd_refl _)) rfl)
      · exact past m hm

theorem mem_pagesFrom {m p : ℕ} (hdvd : info.oobblock ∣ m)
    (hp : p ∈ info.pagesFrom m) :
    info.oobblock ∣ p ∧ m ≤ p ∧ p < info.size := by
  revert hp
  refine @page_induction info (fun m => p ∈ info.pagesFrom m →
    info.oobblock ∣ p ∧ m ≤ p ∧ p < info.size) ?_ ?_ m hdvd
  · intro m hm hp
    rw [pagesFrom_of_ge hm] at hp
    exact absurd hp List.not_mem_nil
  · intro m hdvd hm ih hp
    rw [pagesFrom_cons hdvd hm, List.mem_cons] at hp
    rcases hp with rfl | hp
    · exact ⟨hdvd, le_rfl, hm⟩
    · obtain ⟨hpdvd, hle, hlt⟩ := ih hp
      exact ⟨hpdvd, by omega, hlt⟩

theorem mem_goodPages {m p : ℕ} (hdvd : info.oobblock ∣ m)
    (hp : p ∈ info.goodPages checkbad m) :
    info.oobblock ∣ p ∧ m ≤ p ∧ p < info.size ∧
      info.badAt checkbad p = false := by
  rw [NandInfo.goodPages, List.mem_filter] at hp
  obtain ⟨hpdvd, hle, hlt⟩ := mem_pagesFrom hdvd hp.1
  exact ⟨hpdvd, hle, hlt, by simpa using hp.2⟩

theorem NextGood.oobblock_dvd {m p : ℕ} (h : NextGood info checkbad m p)
    (hdvd : info.oobblock ∣ m) : info.oobblock ∣ p := by
  rcases h.place with rfl | hplace
  · exact hdvd
  · exact info.oobblock_dvd.trans hplace

/-- The first good page is the one the search finds. -/
theorem goodPages_next {m p : ℕ} (h : NextGood info checkbad m p)
    (hdvd : info.oobblock ∣ m) :
    info.goodPages checkbad m =
      p :: info.goodPages checkbad (p + info.oobblock) := by
  revert h
  refine @page_induction info (fun m => NextGood info checkbad m p →
    info.goodPages checkbad m =
      p :: info.goodPages checkbad (p + info.oobblock)) ?_ ?_ m hdvd
  · intro m hm h
    have hle := h.le
    have hlt := h.lt
    omega
  · intro m hdvd hm ih h
    rcases Nat.eq_or_lt_of_le h.le with rfl | hlt
    · exact goodPages_good hdvd hm h.good
    · have hbad := h.between m le_rfl hlt
      have hge : m + info.oobblock ≤ p :=
        page_add_le hdvd (h.oobblock_dvd hdvd) hlt
      rw [goodPages_bad hdvd hm hbad]
      exact ih ⟨h.lt, hge, h.good, Or.inr (h.place.resolve_left hlt.ne'),
        fun q hq => h.between q (by omega)⟩

theorem exists_nextGood {m : ℕ} (hdvd : info.oobblock ∣ m)
    (hne : info.goodPages checkbad m ≠ []) :
    ∃ p, NextGood info checkbad m p := by
  revert hne
  refine @page_induction info (fun m => info.goodPages checkbad m ≠ [] →
    ∃ p, NextGood info checkbad m p) ?_ ?_ m hdvd
  · intro m hm hne
    exact absurd (goodPages_of_ge hm) hne
  · intro m hdvd hm ih hne
    cases hbad : info.badAt checkbad m with
    | false => exact ⟨m, hm, le_rfl, hbad, Or.inl rfl, fun q hq hlt => by omega⟩
    | true =>
        rw [goodPages_bad hdvd hm hbad] at hne
        obtain ⟨p, hp⟩ := ih hne
        have hle := hp.le
        have hblock : ∀ q, m ≤ q → q < info.blockOf m + info.erasesize →
            info.badAt checkbad q = true := by
          intro q hq hlt
          rw [NandInfo.badAt, blockOf_eq (dvd_blockOf m)
            ((blockOf_le m).trans hq) hlt]
          exact hbad
        have hend : m + info.oobblock ≤ info.blockOf m + info.erasesize :=
          page_add_le hdvd (info.oobblock_dvd.trans
            (Nat.dvd_add (dvd_blockOf m) (dvd_refl _))) (lt_blockOf_add m)
        refine ⟨p, hp.lt, by omega, hp.good, Or.inr ?_, fun q hq hlt => ?_⟩
        · rcases hp.place with hplace | hplace
          · have hout : ¬p < info.blockOf m + info.erasesize := by
              intro hin
              have hgood := hp.good
              rw [hblock p (by omega) hin] at hgood
              exact Bool.noConfusion hgood
            rw [show p = info.blockOf m + info.erasesize by omega]
            exact Nat.dvd_add (dvd_blockOf m) (dvd_refl _)
          · exact hplace
        · rcases Nat.lt_or_ge q (m + info.oobblock) with hin | hout
          · exact hblock q hq (by omega)
          · exact hp.between q hout hlt

/-! ## The good pages of blocks -/

/-- The good ones of `count` blocks from block `start` on. -/
def NandInfo.goodBlocks (info : NandInfo) (checkbad : ℤ → Bool)
    (start count : ℕ) : ℕ :=
  (List.range' start count).countP fun b => !checkbad (b * info.erasesize : ℕ)

theorem goodPages_block_rest {b k j : ℕ} (hk : j + k = info.blockPages)
    (hb : b < info.blocks) :
    ∃ pages, info.goodPages checkbad (b * info.erasesize + j * info.oobblock) =
        pages ++ info.goodPages checkbad ((b + 1) * info.erasesize) ∧
      pages.length = (if checkbad (b * info.erasesize : ℕ) then 0 else k) ∧
      ∀ p ∈ pages, b * info.erasesize ≤ p ∧ p < (b + 1) * info.erasesize := by
  have hpos := info.oobblock_pos
  have herase := info.erasesize_eq
  induction k generalizing j with
  | zero =>
      refine ⟨[], ?_, by simp, by simp⟩
      rw [show j = info.blockPages by omega, ← herase, Nat.succ_mul]
      rfl
  | succ k ih =>
      obtain ⟨pages, heq, hlength, hin⟩ := @ih (j + 1) (by omega)
      have hstart : b * info.erasesize + (j + 1) * info.oobblock =
          b * info.erasesize + j * info.oobblock + info.oobblock := by ring
      rw [hstart] at heq
      have hlt : j * info.oobblock < info.erasesize := by
        rw [herase]
        exact Nat.mul_lt_mul_of_pos_right (by omega) hpos
      have hend : (b + 1) * info.erasesize ≤ info.size :=
        Nat.mul_le_mul_right _ hb
      have hsucc : (b + 1) * info.erasesize =
          b * info.erasesize + info.erasesize := Nat.succ_mul _ _
      have hblock : info.blockOf (b * info.erasesize + j * info.oobblock) =
          b * info.erasesize :=
        blockOf_eq (Dvd.intro_left _ rfl) (Nat.le_add_right _ _) (by omega)
      have hdvd : info.oobblock ∣ b * info.erasesize + j * info.oobblock :=
        Nat.dvd_add (info.oobblock_dvd.trans (Dvd.intro_left _ rfl))
          (Dvd.intro_left _ rfl)
      cases hbad : checkbad (b * info.erasesize : ℕ) with
      | true =>
          rw [hbad] at hlength
          refine ⟨pages, ?_, hlength, hin⟩
          rw [goodPages_bad hdvd (by omega)
            (by rw [NandInfo.badAt, hblock, hbad]), heq]
      | false =>
          rw [hbad] at hlength
          refine ⟨(b * info.erasesize + j * info.oobblock) :: pages, ?_, ?_, ?_⟩
          · rw [goodPages_good hdvd (by omega)
              (by rw [NandInfo.badAt, hblock, hbad]), heq, List.cons_append]
          · rw [List.length_cons, hlength]
            rfl
          · rintro p (_ | ⟨_, hp⟩)
            · omega
            · exact hin p hp

/-- The good pages from a block on are those of `count` blocks, in front of those
behind them. -/
theorem goodPages_blocks {start count : ℕ}
    (hcount : start + count ≤ info.blocks) :
    ∃ pages, info.goodPages checkbad (start * info.erasesize) =
        pages ++ info.goodPages checkbad ((start + count) * info.erasesize) ∧
      pages.length =
        info.goodBlocks checkbad start count * info.blockPages ∧
      ∀ p ∈ pages, start * info.erasesize ≤ p ∧
        p < (start + count) * info.erasesize := by
  induction count generalizing start with
  | zero => exact ⟨[], by simp [NandInfo.goodBlocks]⟩
  | succ count ih =>
      obtain ⟨block, hblock, hlength, hin⟩ :=
        @goodPages_block_rest info checkbad start info.blockPages 0 (by omega)
          (by omega)
      obtain ⟨pages, hpages, hrest, hin'⟩ := @ih (start + 1) (by omega)
      rw [show start + 1 + count = start + (count + 1) by omega] at hpages hin'
      rw [Nat.zero_mul, Nat.add_zero] at hblock
      have hmono : ∀ {i k : ℕ}, i ≤ k →
          i * info.erasesize ≤ k * info.erasesize :=
        fun h => Nat.mul_le_mul_right _ h
      refine ⟨block ++ pages, ?_, ?_, ?_⟩
      · rw [hblock, hpages, List.append_assoc]
      · rw [List.length_append, hlength, hrest, NandInfo.goodBlocks,
          NandInfo.goodBlocks, List.range'_succ, List.countP_cons]
        cases checkbad (start * info.erasesize : ℕ) with
        | true => simp
        | false => simp; ring
      · intro p hp
        rcases List.mem_append.mp hp with hp | hp
        · obtain ⟨hle, hlt⟩ := hin p hp
          exact ⟨hle, hlt.trans_le (hmono (by omega))⟩
        · obtain ⟨hle, hlt⟩ := hin' p hp
          exact ⟨(hmono (Nat.le_succ start)).trans hle, hlt⟩

/-- There is a good page from `m` on exactly if there is a good block. -/
theorem goodPages_eq_nil_iff {start : ℕ} (hstart : start ≤ info.blocks) :
    info.goodPages checkbad (start * info.erasesize) = [] ↔
      ∀ b, start ≤ b → b < info.blocks →
        checkbad (b * info.erasesize : ℕ) = true := by
  obtain ⟨pages, hpages, hlength, -⟩ :=
    @goodPages_blocks info checkbad start (info.blocks - start) (by omega)
  have hpos : 0 < info.blockPages := Nat.two_pow_pos _
  have hend : info.goodPages checkbad
      ((start + (info.blocks - start)) * info.erasesize) = [] := by
    rw [Nat.add_sub_cancel' hstart]
    exact goodPages_of_ge le_rfl
  rw [hpages, hend, List.append_nil, ← List.length_eq_zero_iff, hlength,
    Nat.mul_eq_zero, or_iff_left hpos.ne', NandInfo.goodBlocks,
    List.countP_eq_zero]
  constructor
  · intro hall b hle hlt
    have hbad := hall b (List.mem_range'_1.mpr ⟨hle, by omega⟩)
    simpa using hbad
  · intro hall b hb
    obtain ⟨hle, hlt⟩ := List.mem_range'_1.mp hb
    simpa using hall b hle (by omega)

/-! ## The pages of a run -/

section Run

variable {τ : Type*} {fuel : ℕ} {page : τ → ℕ → ℤ → ℤ × ℤ × τ}

/-- The loop over the pages with erase blocks of one block. -/
def pageRun (info : NandInfo) (checkbad : ℤ → Bool) (fuel : ℕ)
    (page : τ → ℕ → ℤ → ℤ × ℤ × τ) :
    ℕ → ℕ → ℕ → ℤ → τ → PageRun τ :=
  pageLoop info checkbad info.erasesize info.erasesize fuel page

theorem checked_noBlock {m : ℕ} (hm : m < info.size) :
    Checked info checkbad noBlock m := by
  intro heq
  have hsize := info.size_le_int
  have hle : info.blockOf m ≤ m := blockOf_le m
  have hval : noBlock = 4294967295 := rfl
  omega

/-- The next page of the device is where the next round starts. -/
theorem next_offset {m : ℕ} (hm : m ≤ info.size + info.erasesize) :
    (m + info.oobblock) % 2 ^ 32 = m + info.oobblock := by
  have hsize := info.size_le_int
  have herase := info.erasesize_le
  have hpage := Nat.le_of_dvd info.erasesize_pos info.oobblock_dvd
  exact Nat.mod_eq_of_lt (by omega)

/-- What has been found is checked for the next round. -/
theorem FoundAt.checked {m bs' m' : ℕ} (h : FoundAt info checkbad m bs' m')
    (hnext : (m' + info.oobblock) % 2 ^ 32 < info.size) :
    Checked info checkbad bs' ((m' + info.oobblock) % 2 ^ 32) := by
  rcases h with ⟨rfl, hgood⟩ | ⟨hpast, hnear⟩
  · exact Checked.next hgood.good _
  · rw [next_offset hnear] at hnext
    omega

theorem pageRun_stop {n bs m : ℕ} {imglen : ℤ} {state : τ}
    (h : ¬(imglen ≠ 0 ∧ m < info.size)) :
    pageRun info checkbad fuel page (n + 1) bs m imglen state =
      ⟨.finished, imglen, state, []⟩ := by
  rw [pageRun, pageLoop, if_neg h]

theorem pageRun_found {n bs m bs' m' : ℕ} {imglen : ℤ} {state : τ}
    (hgo : imglen ≠ 0 ∧ m < info.size)
    (hskip : skipBad info checkbad info.erasesize info.erasesize fuel fuel bs m =
      .found bs' m') {result readlen : ℤ} {state' : τ}
    (hpage : page state m' imglen = (result, readlen, state')) :
    pageRun info checkbad fuel page (n + 1) bs m imglen state =
      if result ≠ 0 then ⟨.failed, imglen, state', [m']⟩
      else
        (pageRun info checkbad fuel page n bs' ((m' + info.oobblock) % 2 ^ 32)
          (imglen - readlen) state').cons m' := by
  rw [pageRun, pageLoop, if_pos hgo, hskip]
  simp only [hpage]

/-- One round of the loop. -/
theorem pageRun_cases {n bs m : ℕ} {imglen : ℤ} {state : τ}
    (hbs : m < info.size → Checked info checkbad bs m) :
    (pageRun info checkbad (fuel + 1) page (n + 1) bs m imglen state).pages = []
      ∨ ∃ bs' m', FoundAt info checkbad m bs' m' ∧ imglen ≠ 0 ∧
        pageRun info checkbad (fuel + 1) page (n + 1) bs m imglen state =
          if (page state m' imglen).1 ≠ 0 then
            ⟨.failed, imglen, (page state m' imglen).2.2, [m']⟩
          else
            (pageRun info checkbad (fuel + 1) page n bs'
              ((m' + info.oobblock) % 2 ^ 32)
              (imglen - (page state m' imglen).2.1)
              (page state m' imglen).2.2).cons m' := by
  rw [pageRun, pageLoop]
  split
  · rename_i hgo
    split
    · exact Or.inl rfl
    · exact Or.inl rfl
    · rename_i bs' m' hfound
      exact Or.inr ⟨bs', m', skipBad_found hgo.2 (hbs hgo.2) hfound, hgo.1, rfl⟩
  · exact Or.inl rfl

/-- Behind the end of the device no page is used. -/
theorem pageRun_past {n bs m : ℕ} {imglen : ℤ} {state : τ}
    (hm : info.size ≤ m) :
    (pageRun info checkbad (fuel + 1) page n bs m imglen state).pages = [] := by
  cases n with
  | zero => rfl
  | succ n =>
      rw [pageRun, pageLoop, if_neg (fun hgo => absurd hgo.2 (not_lt.mpr hm))]

/-- The pages used in the device are the first good pages from the start on. -/
theorem pageRun_pages {n bs m : ℕ} {imglen : ℤ} {state : τ}
    (hbs : m < info.size → Checked info checkbad bs m)
    (hdvd : info.oobblock ∣ m) :
    (pageRun info checkbad (fuel + 1) page n bs m imglen state).pages.filter
      (· < info.size) <+: info.goodPages checkbad m := by
  induction n generalizing bs m imglen state with
  | zero => exact List.nil_prefix
  | succ n ih =>
      rcases @pageRun_cases info checkbad τ fuel page n bs m imglen state hbs
        with hnone | ⟨bs', m', hfound, -, hround⟩
      · rw [hnone]
        exact List.nil_prefix
      · rw [hround]
        rcases hfound with ⟨rfl, hnext⟩ | ⟨hpast, hnear⟩
        · have hkeep : ∀ pages : List ℕ,
              (m' :: pages).filter (· < info.size) =
                m' :: pages.filter (· < info.size) :=
            fun pages => List.filter_cons_of_pos (by simpa using hnext.lt)
          rw [goodPages_next hnext hdvd, next_offset
            (hnext.lt.le.trans (Nat.le_add_right _ _))]
          split
          · rw [hkeep]
            exact List.prefix_cons_inj m' |>.mpr List.nil_prefix
          · rw [PageRun.cons_pages, hkeep]
            refine (List.prefix_cons_inj m').mpr (ih ?_ ?_)
            · exact fun _ => Checked.next hnext.good _
            · exact Nat.dvd_add (hnext.oobblock_dvd hdvd) (dvd_refl _)
        · have hdrop : ∀ pages : List ℕ,
              (m' :: pages).filter (· < info.size) =
                pages.filter (· < info.size) :=
            fun pages => List.filter_cons_of_neg (by simpa using hpast)
          split
          · rw [hdrop]
            exact List.nil_prefix
          · rw [PageRun.cons_pages, hdrop, next_offset hnear,
              pageRun_past (hpast.trans (Nat.le_add_right _ _))]
            exact List.nil_prefix

/-- For an image that is done no page is used. -/
theorem pageRun_zero {n bs m : ℕ} {state : τ} :
    (pageRun info checkbad (fuel + 1) page n bs m 0 state).pages = [] := by
  cases n with
  | zero => rfl
  | succ n => rw [pageRun, pageLoop, if_neg (fun hgo => hgo.1 rfl)]

/-- A page takes the length of a page from the image, or what is left of it. -/
def MovesPages (info : NandInfo) (page : τ → ℕ → ℤ → ℤ × ℤ × τ) : Prop :=
  ∀ state m imglen, 0 < imglen → imglen < 2 ^ 31 →
    (page state m imglen).1 = 0 →
      (page state m imglen).2.1 = min imglen info.oobblock

/-- No more pages are used than the image has. -/
theorem pageRun_length {n bs m : ℕ} {imglen : ℤ} {state : τ}
    (hpage : MovesPages info page)
    (hbs : m < info.size → Checked info checkbad bs m) (hlen : 0 ≤ imglen)
    (hint : imglen < 2 ^ 31) :
    ((pageRun info checkbad (fuel + 1) page n bs m imglen state).pages.length : ℤ)
      * info.oobblock < imglen + info.oobblock := by
  have hpos : (0 : ℤ) < info.oobblock := by exact_mod_cast info.oobblock_pos
  induction n generalizing bs m imglen state with
  | zero =>
      rw [pageRun, pageLoop]
      simp only [List.length_nil]
      omega
  | succ n ih =>
      rcases @pageRun_cases info checkbad τ fuel page n bs m imglen state hbs
        with hnone | ⟨bs', m', hfound, hne, hround⟩
      · rw [hnone]
        simp only [List.length_nil]
        omega
      · rw [hround]
        split
        · simp only [List.length_singleton]
          omega
        · rename_i hok
          have hmoved := hpage state m' imglen (by omega) hint (by simpa using hok)
          rw [PageRun.cons_pages, List.length_cons, hmoved, Nat.cast_succ, add_mul,
            one_mul]
          rcases le_total imglen info.oobblock with hlast | hmore
          · rw [min_eq_left hlast, sub_self, pageRun_zero, List.length_nil]
            omega
          · rw [min_eq_right hmore]
            have hrest := @ih bs' ((m' + info.oobblock) % 2 ^ 32)
              (imglen - info.oobblock) (page state m' imglen).2.2
              hfound.checked (by omega) (by omega)
            linarith

/-- With enough fuel and no failure the next good page is used. -/
theorem pageRun_head {n bs m p : ℕ} {imglen : ℤ} {state : τ} {rest : List ℕ}
    (hpage : MovesPages info page)
    (hok : ∀ state m imglen, (page state m imglen).1 = 0)
    (hfuel : info.blocks ≤ fuel) (hbs : Checked info checkbad bs m)
    (hdvd : info.oobblock ∣ m)
    (hgood : info.goodPages checkbad m = p :: rest) (hpos : 0 < imglen)
    (hint : imglen < 2 ^ 31) :
    ∃ state', pageRun info checkbad (fuel + 1) page (n + 1) bs m imglen state =
        (pageRun info checkbad (fuel + 1) page n (info.blockOf p)
          (p + info.oobblock) (imglen - min imglen info.oobblock) state').cons p ∧
      info.goodPages checkbad (p + info.oobblock) = rest ∧
      Checked info checkbad (info.blockOf p) (p + info.oobblock) ∧
      info.oobblock ∣ p + info.oobblock := by
  obtain ⟨p', hnext⟩ := exists_nextGood hdvd (by rw [hgood]; simp)
  have heq := goodPages_next hnext hdvd
  rw [hgood, List.cons.injEq] at heq
  obtain ⟨rfl, hrest⟩ := heq
  have hround : p - info.blockOf m < fuel * info.erasesize :=
    (Nat.sub_le _ _).trans_lt (hnext.lt.trans_le
      (Nat.mul_le_mul_right _ hfuel))
  have hskip := @skipBad_reaches info checkbad fuel fuel bs m p hnext hbs hround
  cases hdone : page state p imglen with
  | mk result moved =>
      have hresult : result = 0 := by
        have h := hok state p imglen
        rwa [hdone] at h
      have hmoved : moved.1 = min imglen info.oobblock := by
        have h := hpage state p imglen hpos hint (hok state p imglen)
        rwa [hdone] at h
      refine ⟨moved.2, ?_, hrest.symm, Checked.next hnext.good _,
        Nat.dvd_add (hnext.oobblock_dvd hdvd) (dvd_refl _)⟩
      rw [pageRun_found ⟨hpos.ne', hnext.le.trans_lt hnext.lt⟩ hskip hdone,
        if_neg (by simpa using hresult), hmoved,
        next_offset (hnext.lt.le.trans (Nat.le_add_right _ _))]

/-- With enough fuel and no failure each good page the image reaches is used. -/
theorem pageRun_reaches {n bs m q : ℕ} {imglen : ℤ} {state : τ}
    {front rest : List ℕ} (hpage : MovesPages info page)
    (hok : ∀ state m imglen, (page state m imglen).1 = 0)
    (hfuel : info.blocks ≤ fuel) (hbs : Checked info checkbad bs m)
    (hdvd : info.oobblock ∣ m)
    (hgood : info.goodPages checkbad m = front ++ q :: rest)
    (hn : front.length < n) (hint : imglen < 2 ^ 31)
    (hlen : (front.length : ℤ) * info.oobblock < imglen) :
    q ∈ (pageRun info checkbad (fuel + 1) page n bs m imglen state).pages := by
  induction front generalizing n bs m imglen state with
  | nil =>
      cases n with
      | zero => exact absurd hn (Nat.not_lt_zero _)
      | succ n =>
          obtain ⟨state', hround, -⟩ := @pageRun_head info checkbad τ fuel page n
            bs m q imglen state rest hpage hok hfuel hbs hdvd hgood
            (by simpa using hlen) hint
          rw [hround]
          exact List.mem_cons_self
  | cons p front ih =>
      cases n with
      | zero => exact absurd hn (Nat.not_lt_zero _)
      | succ n =>
          rw [List.length_cons, Nat.cast_succ, add_mul, one_mul] at hlen
          have hfront : (0 : ℤ) ≤ front.length * info.oobblock := by positivity
          have hblock := info.oobblock_pos
          obtain ⟨state', hround, hrest, hchecked, hnext⟩ :=
            @pageRun_head info checkbad τ fuel page n bs m p imglen state
              (front ++ q :: rest) hpage hok hfuel hbs hdvd hgood (by omega) hint
          rw [hround]
          refine List.mem_cons_of_mem _ (ih hchecked hnext hrest ?_ ?_ ?_)
          · rw [List.length_cons] at hn
            omega
          · omega
          · omega

end Run

end GoodPages

end TateFirmware.Nand
