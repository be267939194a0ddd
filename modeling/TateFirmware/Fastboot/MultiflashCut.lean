import Mathlib.Algebra.Order.BigOperators.Group.List
import TateFirmware.Fastboot.Multiflash

/-!
# Which cuts leave an image whole

An image that is flashed in pieces ends up on the card as it does when it is
flashed at once if all pieces but the last are of whole sectors.  At any other
cut there is an image whose bytes in front of the cut get lost.
-/

namespace TateFirmware.Fastboot

open Support LibGeneric Sparse Mmc

/-! ## Raw images -/

/-- The first four bytes of a sparse image. -/
def sparseMagicBytes : List UInt8 := [0x3a, 0xff, 0x26, 0xed]

/-- A raw image does not start like a sparse one. -/
def IsRaw (image : List UInt8) : Prop := ¬ sparseMagicBytes <+: image

instance (image : List UInt8) : Decidable (IsRaw image) :=
  inferInstanceAs (Decidable (¬ _))

/-- The magic number is read from its four bytes. -/
theorem sparseMagicBytes_of_headerMagic {m : Pointer}
    (h : headerMagic m = sparseHeaderMagic) :
    m 0 = 0x3a ∧ m 1 = 0xff ∧ m 2 = 0x26 ∧ m 3 = 0xed := by
  have h0 := (m 0).toNat_lt
  have h1 := (m 1).toNat_lt
  have h2 := (m 2).toNat_lt
  have h3 := (m 3).toNat_lt
  have hsum : (m 0).toNat + 256 * (m 1).toNat +
      65536 * ((m 2).toNat + 256 * (m 3).toNat) = 0xed26ff3a := h
  refine ⟨?_, ?_, ?_, ?_⟩ <;> apply UInt8.toNat.inj <;> simp <;> omega

/-- A raw image of at least four bytes is not taken for a sparse one. -/
theorem IsRaw.headerMagic_ne {image rest : List UInt8}
    (himage : IsRaw (image ++ rest)) (hlen : 4 ≤ image.length) {m : Pointer}
    (hm : Memory.Holds m 0 image) : headerMagic m ≠ sparseHeaderMagic := by
  intro hmagic
  obtain ⟨h0, h1, h2, h3⟩ := sparseMagicBytes_of_headerMagic hmagic
  match image, hlen with
  | a :: b :: c :: d :: image, _ =>
      simp only [Memory.holds_cons, Nat.zero_add, Nat.reduceAdd] at hm
      obtain ⟨ha, hb, hc, hd, -⟩ := hm
      apply himage
      rw [← ha, ← hb, ← hc, ← hd, h0, h1, h2, h3]
      exact ⟨image ++ rest, rfl⟩

/-- An image of zeros and ones is raw. -/
theorem isRaw_of_zeros_and_ones {image : List UInt8}
    (h : ∀ b ∈ image, b = 0 ∨ b = 1) : IsRaw image := by
  intro hstarts
  rcases h 0x3a (hstarts.subset (by decide)) with h | h <;>
    exact absurd h (by decide)

/-- No memory with such an image at its start is taken for a sparse image,
however short the image is. -/
theorem headerMagic_ne_of_zeros_and_ones {image : List UInt8} {m : Pointer}
    (hm : Memory.Holds m 0 image) (hne : image ≠ [])
    (h : ∀ b ∈ image, b = 0 ∨ b = 1) :
    headerMagic m ≠ sparseHeaderMagic := by
  intro hmagic
  obtain ⟨hfirst, -⟩ := sparseMagicBytes_of_headerMagic hmagic
  match image, hne with
  | b :: image, _ =>
      rw [(Memory.holds_cons.mp hm).1] at hfirst
      rcases h b List.mem_cons_self with rfl | rfl <;>
        exact absurd hfirst (by decide)

/-! ## An image in one piece -/

section Cut

variable {iface : Interface} {board : Board} {name : List UInt8}
  {ptn : Ptentry} {st : State}

/-- What a write leaves on the card depends on the download and the writer. -/
theorem PtnWrite.perform_mmc_congr {ptn : Ptentry} {o : ℕ} {st st' : State}
    (h : SameWriter st st') (hbuffer : st'.transferBuffer = st.transferBuffer)
    (hbytes : st'.downloadBytes = st.downloadBytes) :
    (PtnWrite.perform ⟨ptn, o, st'⟩).2.2.mmc =
      (PtnWrite.perform ⟨ptn, o, st⟩).2.2.mmc := by
  have hbegin : SameWriter (beginWrite ptn st) (beginWrite ptn st') := by
    unfold beginWrite
    rw [h.mmc_eq, hbuffer, h.sparse_eq]
    dsimp only
    split <;> exact ⟨rfl, rfl, rfl⟩
  have hbegun : SameWriter (PtnWrite.begun ⟨ptn, o, st⟩)
      (PtnWrite.begun ⟨ptn, o, st'⟩) := by
    unfold PtnWrite.begun
    dsimp only
    split
    · exact hbegin
    · exact h
  have hdownload : (PtnWrite.begun ⟨ptn, o, st'⟩).download =
      (PtnWrite.begun ⟨ptn, o, st⟩).download := by
    unfold State.download
    rw [PtnWrite.begun_transferBuffer, PtnWrite.begun_transferBuffer,
      PtnWrite.begun_downloadBytes, PtnWrite.begun_downloadBytes, hbuffer,
      hbytes]
  have hcalls : PtnWrite.calls ⟨ptn, o, st'⟩ = PtnWrite.calls ⟨ptn, o, st⟩ := by
    unfold PtnWrite.calls
    rw [hbegun.isSparsed_eq, hdownload, hbegun.sparse_eq, hbuffer, hbytes]
  rw [PtnWrite.perform_mmc, PtnWrite.perform_mmc, hcalls, hbegun.mmc_eq]

variable (board) in
/-- One piece alone is what `flash:` makes of it. -/
theorem run_single (hmedium : iface.storageMedium = .emmc)
    (henv : ptn.has flagsWriteEnv = false) (hst : Between name ptn st 0)
    {data : List UInt8} (hdata : data ≠ [])
    (hsize : data.length ≤ iface.transferBufferSize)
    (hfit : data.length ≤ ptn.length) :
    (run (step iface) st (multiflashEvents board name [data])).1.mmc =
      (run (step iface) st (flashEvents board name data)).1.mmc := by
  rw [run_flashEvents board hmedium henv hst hdata hsize hfit, multiflashEvents,
    run_pieceEvents_single board hmedium henv hst hdata hsize hfit]
  apply PtnWrite.perform_mmc_congr
  · exact selectMultiflash_sameWriter _ _
  · exact (selectMultiflash_frame _ _).1
  · exact selectMultiflash_downloadBytes _ _

/-! ## Cuts -/

/-- Flashing the pieces leaves the same image in the partition as flashing
them at once. -/
def FlashesAlike (iface : Interface) (board : Board) (name : List UInt8)
    (ptn : Ptentry) (st : State) (pieces : List (List UInt8)) : Prop :=
  ∀ p < pieces.flatten.length,
    ptnByte ptn
        (run (step iface) st (multiflashEvents board name pieces)).1 p =
      ptnByte ptn
        (run (step iface) st (flashEvents board name pieces.flatten)).1 p

/-- The image ends up whole if all pieces but the last are of whole sectors. -/
theorem flashesAlike_of_aligned (hmedium : iface.storageMedium = .emmc)
    (henv : ptn.has flagsWriteEnv = false) (hst : Between name ptn st 0)
    {pieces : List (List UInt8)} (hne : pieces ≠ [])
    (hpieces : ∀ d ∈ pieces, d ≠ [])
    (hsize : pieces.flatten.length ≤ iface.transferBufferSize)
    (hfit : pieces.flatten.length ≤ ptn.length)
    (hraw : IsRaw pieces.flatten)
    (hcut : ∀ d ∈ pieces.dropLast, d.length % 512 = 0) :
    FlashesAlike iface board name ptn st pieces := by
  match pieces, hne with
  | [d], _ =>
      intro p _
      simp only [List.flatten_cons, List.flatten_nil, List.append_nil] at *
      unfold ptnByte
      rw [run_single board hmedium henv hst (hpieces d (by simp)) hsize hfit]
  | d :: e :: rest, _ =>
      intro p hp
      have hd : d.length % 512 = 0 := hcut d (by simp)
      have hpos : 0 < d.length :=
        List.length_pos_of_ne_nil (hpieces d List.mem_cons_self)
      have hfour : 4 ≤ d.length := by omega
      have hlt := iface.transferBufferSize_lt
      have hflatten : (d :: e :: rest).flatten =
          d ++ (e :: rest).flatten := rfl
      have hwhole : (d :: e :: rest).flatten ≠ [] := by
        intro h
        rw [h] at hp
        simp at hp
      have hflashable : Flashable iface ptn 0 (d :: e :: rest) :=
        { nonempty := hpieces
          size_le := fun f hf =>
            (List.sublist_flatten_of_mem hf).length_le.trans hsize
          fits := by omega
          wrap := by omega
          raw := by
            intro _ f hf m hm
            obtain rfl : d = f := by simpa using hf
            rw [hflatten] at hraw
            exact hraw.headerMagic_ne hfour hm }
      have hmulti := run_pieces_aligned board hmedium
        henv (d :: e :: rest) [] (by simp) hst hflashable rfl hcut (by simp) p
        (by simpa using hp)
      have hflash := (run_flash board hmedium henv hst hwhole hsize
        (fun m hm => by
          rw [← List.append_nil (d :: e :: rest).flatten] at hraw
          refine hraw.headerMagic_ne ?_ hm
          rw [hflatten, List.length_append]
          omega)
        hfit).inside p (by omega) (by omega)
      rw [List.nil_append] at hmulti
      rw [Nat.zero_div, Nat.zero_mul, Nat.sub_zero] at hflash
      exact hmulti.trans hflash.symm

theorem flashable_of_zeros_and_ones {pieces : List (List UInt8)} {o : ℕ}
    (hne : ∀ d ∈ pieces, d ≠ [])
    (hsize : ∀ d ∈ pieces, d.length ≤ iface.transferBufferSize)
    (hfit : o + pieces.flatten.length ≤ ptn.length)
    (hwrap : o + pieces.flatten.length < 2 ^ 32)
    (hbits : ∀ b ∈ pieces.flatten, b = 0 ∨ b = 1) :
    Flashable iface ptn o pieces where
  nonempty := hne
  size_le := hsize
  fits := hfit
  wrap := hwrap
  raw := by
    intro _ d hd m hm
    have hmem : d ∈ pieces := List.mem_of_mem_head? hd
    exact headerMagic_ne_of_zeros_and_ones hm (hne d hmem) fun b hb =>
      hbits b (List.mem_flatten_of_mem hmem hb)

variable (board) in
theorem run_multiflashEvents_cons (data : List UInt8)
    {pieces : List (List UInt8)} (hne : pieces ≠ []) :
    run (step iface) st (multiflashEvents board name (data :: pieces)) =
      run (step iface) st (pieceEvents board false name data ++
        multiflashEvents board name pieces) := by
  match pieces, hne with
  | _ :: _, _ => rfl

variable (board) in
/-- One piece of equal bytes, with more to come. -/
theorem run_replicate (hmedium : iface.storageMedium = .emmc)
    (henv : ptn.has flagsWriteEnv = false) {o l : ℕ}
    (hst : Between name ptn st o) (hpos : 0 < l)
    (hsize : l ≤ iface.transferBufferSize) (hfit : o + l ≤ ptn.length)
    (hwrap : o + l < 2 ^ 32) {b : UInt8} (hb : b = 0 ∨ b = 1) :
    Between name ptn (run (step iface) st
      (pieceEvents board false name (List.replicate l b))).1 (o + l) := by
  have hflashable : Flashable iface ptn o [List.replicate l b] := by
    apply flashable_of_zeros_and_ones <;>
      simp only [List.mem_singleton, forall_eq, List.flatten_cons,
        List.flatten_nil, List.append_nil, List.length_replicate]
    · simpa using hpos.ne'
    · exact hsize
    · exact hfit
    · exact hwrap
    · intro c hc
      rwa [(List.mem_replicate.mp hc).2]
  have hnext := (hflashable.run_head board hmedium henv hst
    false).2 rfl
  rwa [List.length_replicate] at hnext

variable (board) in
/-- At a cut inside a sector some byte can be overwritten. -/
theorem exists_overwritten (hmedium : iface.storageMedium = .emmc)
    (henv : ptn.has flagsWriteEnv = false) (cut : List ℕ) {st : State} {o : ℕ}
    (hst : Between name ptn st o) (ho : o % 512 = 0)
    (hpos : ∀ l ∈ cut, 0 < l) (hsize : ∀ l ∈ cut, l ≤ iface.transferBufferSize)
    (hfit : o + cut.sum ≤ ptn.length) (hwrap : o + cut.sum < 2 ^ 32)
    (hcut : ∃ l ∈ cut.dropLast, l % 512 ≠ 0) :
    ∃ pieces : List (List UInt8), pieces.map List.length = cut ∧
      (∀ b ∈ pieces.flatten, b = 0 ∨ b = 1) ∧
      ∃ a, pieces.flatten[a]? = some 1 ∧
        ptnByte ptn (run (step iface) st
          (multiflashEvents board name pieces)).1 (o + a) = some 0 := by
  induction cut generalizing st o with
  | nil => simp at hcut
  | cons l cut ih =>
      have hcutne : cut ≠ [] := by
        rintro rfl
        simp at hcut
      rw [List.sum_cons] at hfit hwrap
      have hl := hpos l List.mem_cons_self
      have hlsize := hsize l List.mem_cons_self
      have htail : ∀ k ∈ cut, 0 < k ∧ k ≤ iface.transferBufferSize :=
        fun k hk => ⟨hpos k (List.mem_cons_of_mem _ hk),
          hsize k (List.mem_cons_of_mem _ hk)⟩
      by_cases haligned : l % 512 = 0
      · -- The byte is behind this piece.
        have hrest : ∃ k ∈ cut.dropLast, k % 512 ≠ 0 := by
          rw [List.dropLast_cons_of_ne_nil hcutne] at hcut
          obtain ⟨k, hk, hkne⟩ := hcut
          rcases List.mem_cons.mp hk with rfl | hk
          · exact absurd haligned hkne
          · exact ⟨k, hk, hkne⟩
        obtain ⟨pieces, hlengths, hbits, a, ha, hover⟩ := ih
          (run_replicate board hmedium henv hst hl hlsize
            (by omega) (by omega) (Or.inl rfl))
          (by omega) (fun k hk => (htail k hk).1) (fun k hk => (htail k hk).2)
          (by omega) (by omega) hrest
        have hne : pieces ≠ [] := by
          rintro rfl
          exact hcutne hlengths.symm
        refine ⟨List.replicate l 0 :: pieces, ?_, ?_, l + a, ?_, ?_⟩
        · rw [List.map_cons, List.length_replicate, hlengths]
        · intro b hb
          rcases List.mem_append.mp hb with hb | hb
          · exact Or.inl (List.mem_replicate.mp hb).2
          · exact hbits b hb
        · rw [List.flatten_cons, List.getElem?_append_right (by simp)]
          simpa using ha
        · rw [run_multiflashEvents_cons _ _ hne, run_append, ← Nat.add_assoc]
          exact hover
      · -- The last sector of this piece is overwritten by the ones behind it.
        let pieces := cut.map fun k => List.replicate k (0 : UInt8)
        have hne : pieces ≠ [] := by simpa [pieces] using hcutne
        have hlengths : pieces.map List.length = cut := by
          simp [pieces, Function.comp_def]
        have hsum : pieces.flatten.length = cut.sum := by
          rw [List.length_flatten, hlengths]
        have hzero : ∀ d ∈ pieces, ∀ b ∈ d, b = 0 := by
          intro d hd b hb
          obtain ⟨k, -, rfl⟩ := List.mem_map.mp hd
          exact (List.mem_replicate.mp hb).2
        have hflashable : Flashable iface ptn (o + l) pieces := by
          apply flashable_of_zeros_and_ones
          · intro d hd
            obtain ⟨k, hk, rfl⟩ := List.mem_map.mp hd
            simpa using (htail k hk).1.ne'
          · intro d hd
            obtain ⟨k, hk, rfl⟩ := List.mem_map.mp hd
            simpa using (htail k hk).2
          · omega
          · omega
          · intro b hb
            obtain ⟨d, hd, hb⟩ := List.mem_flatten.mp hb
            exact Or.inl (hzero d hd b hb)
        have hover := run_pieces_zero board (a := o + l / 512 * 512)
          hmedium henv pieces hne
          (run_replicate board hmedium henv hst hl hlsize
            (by omega) (by omega) (Or.inr rfl))
          hflashable hzero (by omega) (Or.inl (by omega))
        refine ⟨List.replicate l 1 :: pieces, ?_, ?_, l / 512 * 512, ?_, ?_⟩
        · rw [List.map_cons, List.length_replicate, hlengths]
        · intro b hb
          rcases List.mem_append.mp hb with hb | hb
          · exact Or.inr (List.mem_replicate.mp hb).2
          · obtain ⟨d, hd, hb⟩ := List.mem_flatten.mp hb
            exact Or.inl (hzero d hd b hb)
        · have hlt : l / 512 * 512 < l := by omega
          rw [List.flatten_cons, List.getElem?_append_left (by simpa using hlt)]
          simp [hlt]
        · rw [run_multiflashEvents_cons _ _ hne, run_append]
          exact hover

/-- The images of a cut survive it if and only if it is made of whole
sectors. -/
theorem flashesAlike_iff (hmedium : iface.storageMedium = .emmc)
    (henv : ptn.has flagsWriteEnv = false) (hst : Between name ptn st 0)
    {cut : List ℕ} (hne : cut ≠ []) (hpos : ∀ l ∈ cut, 0 < l)
    (hsize : cut.sum ≤ iface.transferBufferSize)
    (hfit : cut.sum ≤ ptn.length) :
    (∀ pieces : List (List UInt8), pieces.map List.length = cut →
      IsRaw pieces.flatten → FlashesAlike iface board name ptn st pieces) ↔
    ∀ l ∈ cut.dropLast, l % 512 = 0 := by
  constructor
  · intro halike
    by_contra hcut
    push Not at hcut
    have hlt := iface.transferBufferSize_lt
    obtain ⟨pieces, rfl, hbits, a, ha, hover⟩ := exists_overwritten
      board hmedium henv cut hst rfl hpos
      (fun l hl => (List.single_le_sum (fun _ _ => Nat.zero_le _) l hl).trans
        hsize)
      (by omega) (by omega) hcut
    rw [← List.length_flatten] at hsize hfit
    obtain ⟨halt, -⟩ := List.getElem?_eq_some_iff.mp ha
    have hwhole : pieces.flatten ≠ [] := by
      intro h
      rw [h] at halt
      simp at halt
    have hflash := (run_flash board hmedium henv hst hwhole hsize
      (fun m hm => headerMagic_ne_of_zeros_and_ones hm hwhole hbits)
      hfit).inside a (by omega) (by omega)
    rw [Nat.zero_div, Nat.zero_mul, Nat.sub_zero, ha] at hflash
    have hsame := halike pieces rfl (isRaw_of_zeros_and_ones hbits) a halt
    rw [Nat.zero_add] at hover
    have hzero : some (0 : UInt8) = some 1 :=
      hover.symm.trans (hsame.trans hflash)
    exact absurd hzero (by decide)
  · rintro hcut pieces rfl hraw
    rw [← List.length_flatten] at hsize hfit
    refine flashesAlike_of_aligned hmedium henv hst ?_ ?_ hsize hfit hraw ?_
    · rintro rfl
      exact hne rfl
    · rintro d hd rfl
      exact absurd (hpos _ (List.mem_map_of_mem hd)) (by simp)
    · intro d hd
      apply hcut
      rw [← List.map_dropLast]
      exact List.mem_map_of_mem hd

end Cut

/-! ## Two cuts -/

theorem systemBoard_between :
    Between (text "system") systemPtn (systemBoard []) 0 where
  left := rfl
  idle := rfl
  entry := by decide
  healthy := ⟨rfl, rfl, rfl⟩
  limit := by decide
  offset := by decide
  configured h := absurd rfl h

/-- An image cut behind its first sector stays whole. -/
theorem flashesAlike_sector :
    (∀ pieces : List (List UInt8), pieces.map List.length = [512, 4] →
      IsRaw pieces.flatten → FlashesAlike (emmcBoard 1024 (by decide))
        quietBoard (text "system") systemPtn (systemBoard []) pieces) ↔
    ∀ l ∈ [512, 4].dropLast, l % 512 = 0 :=
  flashesAlike_iff rfl (by decide) systemBoard_between (by simp) (by simp)
    (by decide) (by decide)

/-- The second of two pieces of one byte overwrites the first. -/
theorem not_flashesAlike :
    ¬ ∀ (iface : Interface) (board : Board) (name : List UInt8)
      (ptn : Ptentry) (st : State) (pieces : List (List UInt8)),
      iface.storageMedium = .emmc → ptn.has flagsWriteEnv = false →
      Between name ptn st 0 → pieces ≠ [] → (∀ d ∈ pieces, d ≠ []) →
      pieces.flatten.length ≤ iface.transferBufferSize →
      pieces.flatten.length ≤ ptn.length → IsRaw pieces.flatten →
      FlashesAlike iface board name ptn st pieces := by
  intro hclaim
  have halike := hclaim (emmcBoard 1024 (by decide)) quietBoard (text "system")
    systemPtn (systemBoard []) [[1], [0]] rfl (by decide) systemBoard_between
    (by simp) (by simp) (by decide) (by decide) (by decide) 0 (by decide)
  exact absurd halike (by decide +kernel)

end TateFirmware.Fastboot
