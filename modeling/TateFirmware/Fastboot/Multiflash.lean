import TateFirmware.Fastboot.Download
import TateFirmware.Fastboot.Target
import TateFirmware.Mmc.Sectors

/-!
# Flashing a raw image in pieces

`multiflash:` writes each piece of an image behind the pieces before it.  A
piece is written from a whole sector on, and the sector of its offset is
rounded down, so a piece whose offset is no multiple of the sector size
overwrites the end of the piece in front of it.
-/

namespace TateFirmware.Fastboot

open Support LibGeneric Sparse Mmc

/-! ## Downloading a piece -/

/-- The events of a download in one packet. -/
def downloadEvents (board : Board) (data : List UInt8) : List Event :=
  [.packet (text "download:" ++ formatHex08 data.length) board,
    .packet data board]

/-- The state behind the download of some bytes on eMMC. -/
structure Downloaded (st st' : State) (data : List UInt8) : Prop
    extends SameFlash st st' where
  idle : st'.downloadSize = 0
  bytes_eq : st'.downloadBytes = data.length
  buffer_holds : Memory.Holds st'.transferBuffer.cell 0 data

/-- A packet that is a whole download. -/
theorem rxData_whole {iface : Interface} {st : State} {data : List UInt8}
    (hmedium : iface.storageMedium = .emmc)
    (hsize : st.downloadSize = data.length) (hbytes : st.downloadBytes = 0)
    (hdata : data ≠ []) (hlt : data.length < 2 ^ 32) :
    Downloaded st (rxData iface data st).st data := by
  have hn : transferSize st data.length = data.length := by
    unfold transferSize
    omega
  have hmod : (0 + data.length) % 2 ^ 32 = data.length := by omega
  have hreply : rxData iface data st =
      ⟨{ st with
          transferBuffer := st.transferBuffer.copyIn 0 data
          downloadBytes := data.length
          downloadSize := 0 },
        [if st.downloadError ≠ 0 then text "ERROR" else text "OKAY"], 0⟩ := by
    simp only [rxData, if_neg hdata, hn, hbytes, hmod, hsize, le_refl,
      if_true, List.take_length, hmedium]
  have hholds : Memory.Holds (st.transferBuffer.copyIn 0 data).cell 0
      data := by
    rw [TrackedMemory.copyIn_cell]
    exact Memory.holds_copyIn _ _ _
  rw [hreply]
  exact ⟨⟨⟨rfl, rfl, rfl⟩, rfl, rfl, rfl, rfl⟩, rfl, rfl, hholds⟩

theorem run_downloadEvents {iface : Interface} (board : Board) {st : State}
    {data : List UInt8} (hmedium : iface.storageMedium = .emmc)
    (hleft : st.left = false) (hidle : st.downloadSize = 0)
    (hdata : data ≠ []) (hsize : data.length ≤ iface.transferBufferSize) :
    Downloaded st (run (step iface) st (downloadEvents board data)).1 data := by
  have hpos : 0 < data.length := List.length_pos_of_ne_nil hdata
  have hlt : data.length < 2 ^ 32 := by
    have := iface.transferBufferSize_lt
    omega
  have haccept : AcceptsDownload iface st
      (text "download:" ++ formatHex08 data.length, board) data.length := by
    refine ⟨hleft, hidle, ?_, ?_, hpos, hsize⟩
    · exact List.isPrefixOf_iff_prefix.mpr (List.prefix_append _ _)
    · rw [List.drop_left' (by decide), simpleStrtoul_formatHex08 hlt]
  have hcommand := step_of_acceptsDownload haccept
  rw [Packet.event] at hcommand
  have hsame : SameFlash st { st with
      fastbootConfirmed := true
      downloadSize := data.length
      downloadBytes := 0
      downloadError := 0 } := ⟨⟨rfl, rfl, rfl⟩, rfl, rfl, rfl, rfl⟩
  unfold downloadEvents
  simp only [run_cons, run_nil, hcommand]
  generalize hst' : ({ st with
      fastbootConfirmed := true
      downloadSize := data.length
      downloadBytes := 0
      downloadError := 0 } : State) = st' at hsame ⊢
  have hsize' : st'.downloadSize = data.length := by rw [← hst']
  have hbytes' : st'.downloadBytes = 0 := by rw [← hst']
  have hleft' : st'.left = false := hsame.left_eq.trans hleft
  have hdown : st'.downloadSize ≠ 0 := by omega
  have hwhole := rxData_whole hmedium hsize' hbytes' hdata hlt
  have hstep : (step iface st' (.packet data board)).1 =
      (rxData iface data st').st := by
    simp [step, hleft', rxHandler, hdown]
  rw [hstep]
  exact ⟨hsame.trans hwhole.toSameFlash, hwhole.idle, hwhole.bytes_eq,
    hwhole.buffer_holds⟩

/-! ## Writing a raw piece -/

section Raw

variable {w : PtnWrite} {data : List UInt8}

/-- A write of a raw piece with a faultless controller. -/
structure RawWritten (w : PtnWrite) (data : List UInt8) (st : State) :
    Prop where
  written_eq : ∃ buf, Memory.Holds buf 0 data ∧
    st.mmc.written = w.st.mmc.written ++ transferred emmcSlot
      (w.ptn.start + w.offset / 512) (numSecVal data.length) (blocks buf)
  healthy : st.mmc.Healthy
  card_eq : st.mmc.curCardData = w.st.mmc.curCardData
  dev : st.mmc.dev emmcSlot = true
  isSparsed : st.mmcwriteIsSparsed = false
  idle : st.downloadSize = w.st.downloadSize
  bytes_eq : st.downloadBytes = w.st.downloadBytes
  ptable_eq : st.ptable = w.st.ptable
  offset_eq : st.multiflashOffset = w.st.multiflashOffset
  ptn_eq : st.multiflashPtn = w.st.multiflashPtn
  left_eq : st.left = w.st.left

/-- The first chunk of a raw image initialises the card, and a later one finds
it initialised. -/
theorem begun_of_raw (hhealthy : w.st.mmc.Healthy)
    (hraw : if w.offset = 0 then
        headerMagic w.st.transferBuffer.cell ≠ sparseHeaderMagic
      else w.st.mmcwriteIsSparsed = false ∧ w.st.mmc.dev emmcSlot = true) :
    ∃ mmc, w.begun = { w.st with mmc := mmc, mmcwriteIsSparsed := false } ∧
      mmc.Healthy ∧ mmc.dev emmcSlot = true ∧
      mmc.written = w.st.mmc.written ∧
      mmc.curCardData = w.st.mmc.curCardData := by
  unfold PtnWrite.begun
  split
  · rename_i hoffset
    rw [if_pos hoffset] at hraw
    refine ⟨mmcInit emmcSlot w.st.mmc, ?_, ?_⟩
    · unfold beginWrite
      dsimp only
      rw [if_neg hraw]
    · obtain ⟨hinit, hcommands, htransfers⟩ := hhealthy
      have hmmc : mmcInit emmcSlot w.st.mmc = { w.st.mmc with
          dev := Function.update w.st.mmc.dev emmcSlot true } := by
        simp only [mmcInit, hinit]
      rw [hmmc]
      exact ⟨⟨hinit, hcommands, htransfers⟩, by simp, rfl, rfl⟩
  · rename_i hoffset
    rw [if_neg hoffset] at hraw
    refine ⟨w.st.mmc, ?_, hhealthy, hraw.2, rfl, rfl⟩
    rw [← hraw.1]

variable (data) in
theorem perform_raw (hhealthy : w.st.mmc.Healthy)
    (hraw : if w.offset = 0 then
        headerMagic w.st.transferBuffer.cell ≠ sparseHeaderMagic
      else w.st.mmcwriteIsSparsed = false ∧ w.st.mmc.dev emmcSlot = true)
    (hbytes : w.st.downloadBytes = data.length)
    (hholds : Memory.Holds w.st.transferBuffer.cell 0 data)
    (hlimit : w.ptn.start + w.offset / 512 + numSecVal data.length ≤
      sectorLimit (w.st.mmc.curCardData emmcSlot).mode)
    (hdata : data ≠ []) (hlt : data.length < 2 ^ 31) :
    w.perform.1 = true ∧ w.perform.2.1 = text "OKAY" ∧
      RawWritten w data w.perform.2.2 := by
  obtain ⟨mmc, hbegun, hmmc, hdev, hwritten, hcards⟩ :=
    begun_of_raw hhealthy hraw
  have hpos : 0 < data.length := List.length_pos_of_ne_nil hdata
  have hn : numSecVal data.length ≠ 0 := by
    unfold numSecVal mmcsdSectorSize
    omega
  have hsector : (w.ptn.start + w.offset / 512) % 2 ^ 32 =
      w.ptn.start + w.offset / 512 := by
    have := sectorLimit_le (w.st.mmc.curCardData emmcSlot).mode
    exact Nat.mod_eq_of_lt (by omega)
  obtain ⟨hret, hcards', ⟨hcommands, htransfers⟩, hstored, -⟩ :=
    @mmcWrite_faultless emmcSlot mmc ⟨hmmc.2.1, hmmc.2.2⟩ hdev
      w.st.transferBuffer.cell (w.ptn.start + w.offset / 512)
      data.length (by rw [hcards]; exact hlimit)
  have hwrite : writeRaw w.ptn w.offset w.begun =
      (1, { w.begun with mmc := (mmcWrite emmcSlot w.st.transferBuffer.cell
        (w.ptn.start + w.offset / 512) data.length mmc).2 }) := by
    unfold writeRaw
    simp only [hbegun, hsector, hbytes, hret]
  have hperform := PtnWrite.perform_of_raw (w := w) (by rw [hbegun])
  rw [hwrite, if_neg (show ¬ (1 : ℕ) ≤ 0 by decide), hbegun] at hperform
  rw [hperform]
  exact ⟨rfl, rfl,
    { written_eq := ⟨w.st.transferBuffer.cell, hholds, by
        rw [hwritten] at hstored
        exact hstored⟩
      healthy := ⟨hcards'.initReports_eq.trans hmmc.1, hcommands, htransfers⟩
      card_eq := hcards'.curCardData_eq.trans hcards
      dev := by
        have := congrFun hcards'.dev_eq emmcSlot
        exact this.trans hdev
      isSparsed := rfl
      idle := rfl
      bytes_eq := rfl
      ptable_eq := rfl
      offset_eq := rfl
      ptn_eq := rfl
      left_eq := rfl }⟩

end Raw

/-! ## One piece -/

/-- A `multiflash:` packet. -/
def multiflashPacket (last : Bool) (name : List UInt8) : List UInt8 :=
  text (if last then "multiflash:1:" else "multiflash:0:") ++ name

theorem multiflashPacket_spec (last : Bool) (name : List UInt8) :
    startsWith (multiflashPacket last name) "multiflash:" = true ∧
      startsWith ((multiflashPacket last name).drop 11) "1" = last ∧
      (multiflashPacket last name).drop 13 = name := by
  cases last with
  | true =>
      refine ⟨?_, ?_, List.drop_left' (by decide)⟩
      · exact List.isPrefixOf_iff_prefix.mpr
          ((show text "multiflash:" <+: text "multiflash:1:" by decide).trans
            (List.prefix_append _ _))
      · simp [multiflashPacket, startsWith, text, ch, List.isPrefixOf]
  | false =>
      refine ⟨?_, ?_, List.drop_left' (by decide)⟩
      · exact List.isPrefixOf_iff_prefix.mpr
          ((show text "multiflash:" <+: text "multiflash:0:" by decide).trans
            (List.prefix_append _ _))
      · simp [multiflashPacket, startsWith, text, ch, List.isPrefixOf]

/-- The events of one piece. -/
def pieceEvents (board : Board) (last : Bool) (name data : List UInt8) :
    List Event :=
  downloadEvents board data ++ [.packet (multiflashPacket last name) board]

/-- Between two pieces: `o` bytes of the image have been written to the
partition `ptn`, and all of the partition can be addressed. -/
structure Between (name : List UInt8) (ptn : Ptentry) (st : State) (o : ℕ) :
    Prop where
  left : st.left = false
  idle : st.downloadSize = 0
  entry : findEntry st.ptable name = some ptn
  healthy : st.mmc.Healthy
  limit : ptn.start + (ptn.length + 511) / 512 ≤
    sectorLimit (st.mmc.curCardData emmcSlot).mode
  offset : (selectMultiflash (fastbootFlashFindPtn st.ptable name)
    st).multiflashOffset = o
  configured : o ≠ 0 →
    st.mmcwriteIsSparsed = false ∧ st.mmc.dev emmcSlot = true

theorem Between.congr {name : List UInt8} {ptn : Ptentry} {st st' : State}
    {o : ℕ} (hst : Between name ptn st o) (h : SameFlash st st')
    (hidle : st'.downloadSize = 0) : Between name ptn st' o where
  left := h.left_eq.trans hst.left
  idle := hidle
  entry := by rw [h.ptable_eq]; exact hst.entry
  healthy := by rw [h.mmc_eq]; exact hst.healthy
  limit := by rw [h.mmc_eq]; exact hst.limit
  offset := by
    have hoffset := hst.offset
    unfold selectMultiflash at hoffset ⊢
    rw [h.ptable_eq, h.ptn_eq]
    split at hoffset
    · rename_i hne
      rw [if_pos hne]
      exact hoffset
    · rename_i heq
      rw [if_neg heq, h.offset_eq]
      exact hoffset
  configured := by
    intro ho
    rw [h.isSparsed_eq, h.mmc_eq]
    exact hst.configured ho

theorem multiflashTarget_eq {iface : Interface} {name : List UInt8}
    {ptn : Ptentry} {st : State} (hmedium : iface.storageMedium = .emmc)
    (hbytes : st.downloadBytes ≠ 0)
    (hentry : findEntry st.ptable name = some ptn)
    (henv : ptn.has flagsWriteEnv = false)
    (hfit : (st.downloadBytes + (selectMultiflash
      (fastbootFlashFindPtn st.ptable name) st).multiflashOffset) % 2 ^ 32 ≤
        ptn.length) :
    multiflashTarget iface name st =
      some ⟨ptn, (selectMultiflash (fastbootFlashFindPtn st.ptable name)
        st).multiflashOffset,
        selectMultiflash (fastbootFlashFindPtn st.ptable name) st⟩ := by
  simp only [multiflashTarget, hmedium, selectMultiflash_downloadBytes,
    selectMultiflash_ptable]
  rw [if_neg hbytes, hentry, Option.bind_some, if_neg]
  rw [henv, not_or, not_lt]
  exact ⟨Bool.false_ne_true, hfit⟩

section Piece

variable {iface : Interface} {board : Board} {name data : List UInt8}
  {ptn : Ptentry} {st : State} {o : ℕ} {last : Bool}

variable (board last) in
/-- The command of a piece writes it at its offset, from a whole sector on. -/
theorem step_multiflash (hmedium : iface.storageMedium = .emmc)
    (henv : ptn.has flagsWriteEnv = false) (hst : Between name ptn st o)
    (hdata : data ≠ []) (hlt : data.length < 2 ^ 31)
    (hbytes : st.downloadBytes = data.length)
    (hholds : Memory.Holds st.transferBuffer.cell 0 data)
    (hraw : o = 0 → headerMagic st.transferBuffer.cell ≠ sparseHeaderMagic)
    (hfit : o + data.length ≤ ptn.length) (hwrap : o + data.length < 2 ^ 32) :
    let st' := (step iface st (.packet (multiflashPacket last name) board)).1
    (∃ buf, Memory.Holds buf 0 data ∧
      st'.mmc.written = st.mmc.written ++ transferred emmcSlot
        (ptn.start + o / 512) (numSecVal data.length) (blocks buf)) ∧
      (last = false → Between name ptn st' (o + data.length)) := by
  intro st'
  have hpos : 0 < data.length := List.length_pos_of_ne_nil hdata
  -- The state in which `multiflash:` is handled.
  have hconfirmed : SameFlash st { st with fastbootConfirmed := true } :=
    ⟨⟨rfl, rfl, rfl⟩, rfl, rfl, rfl, rfl⟩
  have hst₁ := hst.congr hconfirmed hst.idle
  have hbuffer₁ : ({ st with fastbootConfirmed := true } : State).transferBuffer =
      st.transferBuffer := rfl
  have hbytes₁ : ({ st with fastbootConfirmed := true } : State).downloadBytes =
      data.length := hbytes
  have hmmc₁ : ({ st with fastbootConfirmed := true } : State).mmc = st.mmc :=
    rfl
  obtain ⟨hcmd, hlast, hname⟩ := multiflashPacket_spec last name
  have hstep : st' = (multiflash iface last name
      { st with fastbootConfirmed := true }).2 := by
    have hreply := rxCommand_multiflash iface board st hcmd
    rw [hlast, hname] at hreply
    simp only [st', step_command hst.left hst.idle, hreply, stateReply]
  generalize ({ st with fastbootConfirmed := true } : State) = st₁ at *
  -- The call of `write_to_ptn_emmc`.
  have hsame := selectMultiflash_sameWriter
    (fastbootFlashFindPtn st₁.ptable name) st₁
  have htarget := multiflashTarget_eq hmedium (by omega) hst₁.entry henv
    (by rw [hst₁.offset, hbytes₁]; omega)
  rw [multiflash_of_target htarget] at hstep
  have hoffset := hst₁.offset
  have hptn := selectMultiflash_ptn
    (fastbootFlashFindPtn st₁.ptable name) st₁
  have hptable := selectMultiflash_ptable
    (fastbootFlashFindPtn st₁.ptable name) st₁
  have hselBytes := selectMultiflash_downloadBytes
    (fastbootFlashFindPtn st₁.ptable name) st₁
  obtain ⟨hselBuffer, hselLeft, hselIdle⟩ := selectMultiflash_frame
    (fastbootFlashFindPtn st₁.ptable name) st₁
  generalize selectMultiflash (fastbootFlashFindPtn st₁.ptable name) st₁ = sel
    at *
  subst hoffset
  obtain ⟨hok, -, hwritten⟩ := perform_raw (w := ⟨ptn, sel.multiflashOffset, sel⟩)
    data (by rw [hsame.mmc_eq]; exact hst₁.healthy)
    (by
      split
      · rename_i hzero
        rw [hselBuffer, hbuffer₁]
        exact hraw hzero
      · rename_i hne
        rw [hsame.isSparsed_eq, hsame.mmc_eq]
        exact hst₁.configured hne)
    (hselBytes.trans hbytes₁) (by rw [hselBuffer, hbuffer₁]; exact hholds)
    (by
      have hlimit := hst₁.limit
      rw [hsame.mmc_eq]
      unfold numSecVal mmcsdSectorSize
      dsimp only
      omega)
    hdata hlt
  rw [hok, if_pos rfl] at hstep
  dsimp only at hstep
  generalize PtnWrite.perform ⟨ptn, sel.multiflashOffset, sel⟩ = done at *
  constructor
  · obtain ⟨buf, hbuf, heq⟩ := hwritten.written_eq
    refine ⟨buf, hbuf, ?_⟩
    rw [hstep, (advanceMultiflash_sameWriter last done.2.2).mmc_eq, heq,
      hsame.mmc_eq, hmmc₁]
  · rintro rfl
    have hfind : fastbootFlashFindPtn
        (advanceMultiflash false done.2.2).ptable name =
          (advanceMultiflash false done.2.2).multiflashPtn := by
      have heq : fastbootFlashFindPtn done.2.2.ptable name =
          done.2.2.multiflashPtn := by
        rw [hwritten.ptable_eq, hwritten.ptn_eq, hptn, hptable]
      exact heq
    rw [hstep]
    exact
      { left := hwritten.left_eq.trans (hselLeft.trans hst₁.left)
        idle := hwritten.idle.trans (hselIdle.trans hst₁.idle)
        entry := by
          have : (advanceMultiflash false done.2.2).ptable = st₁.ptable :=
            hwritten.ptable_eq.trans hptable
          rw [this]
          exact hst₁.entry
        healthy := hwritten.healthy
        limit := by
          have : (advanceMultiflash false done.2.2).mmc.curCardData =
              st₁.mmc.curCardData :=
            hwritten.card_eq.trans (congrArg Host.curCardData hsame.mmc_eq)
          rw [this]
          exact hst₁.limit
        offset := by
          have hadvance : (advanceMultiflash false done.2.2).multiflashOffset =
              sel.multiflashOffset + data.length := by
            have hsum : (done.2.2.multiflashOffset + done.2.2.downloadBytes) %
                2 ^ 32 = sel.multiflashOffset + data.length := by
              rw [hwritten.offset_eq, hwritten.bytes_eq]
              dsimp only
              rw [hselBytes, hbytes₁, Nat.mod_eq_of_lt hwrap]
            exact hsum
          unfold selectMultiflash
          rw [if_neg (not_not.mpr hfind)]
          exact hadvance
        configured := fun _ => ⟨hwritten.isSparsed, hwritten.dev⟩ }

/-- What a piece leaves on the card, in bytes of the partition: the sectors in
front of it stay, and its bytes stand from the start of the sector of its
offset on. -/
structure PieceWritten (ptn : Ptentry) (st st' : State) (o : ℕ)
    (data : List UInt8) : Prop where
  before : ∀ p, p / 512 < o / 512 →
    byteAt st'.mmc.written emmcSlot ptn.start p =
      byteAt st.mmc.written emmcSlot ptn.start p
  inside : ∀ p, o / 512 ≤ p / 512 → p - o / 512 * 512 < data.length →
    byteAt st'.mmc.written emmcSlot ptn.start p =
      data[p - o / 512 * 512]?

theorem pieceWritten_of_transferred {st' : State} {buf : Memory UInt8}
    (hlt : data.length < 2 ^ 31) (hbuf : Memory.Holds buf 0 data)
    (hwritten : st'.mmc.written = st.mmc.written ++ transferred emmcSlot
      (ptn.start + o / 512) (numSecVal data.length) (blocks buf)) :
    PieceWritten ptn st st' o data where
  before p hp := by
    rw [hwritten]
    exact byteAt_transferred_of_lt hp
  inside p hlo hp := by
    have hhi : p / 512 < o / 512 + numSecVal data.length := by
      unfold numSecVal mmcsdSectorSize
      omega
    have hcell := hbuf (p - o / 512 * 512) hp
    rw [Nat.zero_add] at hcell
    rw [hwritten, byteAt_transferred hlo hhi, List.getElem?_eq_getElem hp,
      ← hcell]
    rfl

variable (board) in
/-- One piece. -/
theorem run_piece (hmedium : iface.storageMedium = .emmc)
    (henv : ptn.has flagsWriteEnv = false) (hst : Between name ptn st o)
    (hdata : data ≠ []) (hsize : data.length ≤ iface.transferBufferSize)
    (hraw : o = 0 → ∀ m, Memory.Holds m 0 data →
      headerMagic m ≠ sparseHeaderMagic)
    (hfit : o + data.length ≤ ptn.length) (hwrap : o + data.length < 2 ^ 32) :
    let st' := (run (step iface) st (pieceEvents board last name data)).1
    PieceWritten ptn st st' o data ∧
      (last = false → Between name ptn st' (o + data.length)) := by
  intro st'
  have hlt : data.length < 2 ^ 31 :=
    lt_of_le_of_lt hsize iface.transferBufferSize_lt
  have hdown := run_downloadEvents board hmedium hst.left hst.idle
    hdata hsize
  have hst' : st' = (step iface
      (run (step iface) st (downloadEvents board data)).1
      (.packet (multiflashPacket last name) board)).1 := by
    simp only [st', pieceEvents, run_append, run_cons, run_nil]
  generalize (run (step iface) st (downloadEvents board data)).1 = mid
    at hdown hst'
  obtain ⟨⟨buf, hbuf, hwritten⟩, hnext⟩ := step_multiflash board
    last hmedium henv (hst.congr hdown.toSameFlash hdown.idle) hdata
    hlt hdown.bytes_eq hdown.buffer_holds
    (fun ho => hraw ho _ hdown.buffer_holds) hfit hwrap
  rw [← hst', hdown.mmc_eq] at hwritten
  rw [← hst'] at hnext
  exact ⟨pieceWritten_of_transferred hlt hbuf hwritten, hnext⟩

/-! ## One `flash:` -/

/-- The events that flash an image in one piece. -/
def flashEvents (board : Board) (name image : List UInt8) : List Event :=
  downloadEvents board image ++ [.packet (text "flash:" ++ name) board]

theorem flashTarget_eq (hmedium : iface.storageMedium = .emmc)
    (hbytes : st.downloadBytes ≠ 0)
    (hentry : findEntry st.ptable name = some ptn)
    (henv : ptn.has flagsWriteEnv = false)
    (hfit : st.downloadBytes ≤ ptn.length) :
    flashTarget iface name st = some ⟨ptn, 0, st⟩ := by
  simp only [flashTarget, hmedium]
  rw [if_neg hbytes, hentry, Option.bind_some, if_neg]
  rw [henv, not_or, not_lt]
  exact ⟨Bool.false_ne_true, hfit⟩

/-- The state in which the command behind a download is handled. -/
def received (iface : Interface) (board : Board) (st : State)
    (data : List UInt8) : State :=
  { (run (step iface) st (downloadEvents board data)).1 with
    fastbootConfirmed := true }

variable (board) in
theorem received_downloaded (hmedium : iface.storageMedium = .emmc)
    (hst : Between name ptn st o) (hdata : data ≠ [])
    (hsize : data.length ≤ iface.transferBufferSize) :
    Downloaded st (received iface board st data) data := by
  have hdown := run_downloadEvents board hmedium hst.left hst.idle
    hdata hsize
  exact ⟨⟨⟨hdown.mmc_eq, hdown.sparse_eq, hdown.isSparsed_eq⟩, hdown.ptable_eq,
    hdown.offset_eq, hdown.ptn_eq, hdown.left_eq⟩, hdown.idle,
    hdown.bytes_eq, hdown.buffer_holds⟩

variable (board) in
/-- `flash:` hands the image to `write_to_ptn_emmc`. -/
theorem run_flashEvents (hmedium : iface.storageMedium = .emmc)
    (henv : ptn.has flagsWriteEnv = false) (hst : Between name ptn st 0)
    (hdata : data ≠ []) (hsize : data.length ≤ iface.transferBufferSize)
    (hfit : data.length ≤ ptn.length) :
    (run (step iface) st (flashEvents board name data)).1.mmc =
      (PtnWrite.perform ⟨ptn, 0, received iface board st data⟩).2.2.mmc := by
  have hpos : 0 < data.length := List.length_pos_of_ne_nil hdata
  have hdown := received_downloaded board hmedium hst hdata hsize
  have hcmd : startsWith (text "flash:" ++ name) "flash:" = true :=
    List.isPrefixOf_iff_prefix.mpr (List.prefix_append _ _)
  have htarget : flashTarget iface name (received iface board st data) =
      some ⟨ptn, 0, received iface board st data⟩ := by
    apply flashTarget_eq hmedium _ _ henv
    · rw [hdown.bytes_eq]
      exact hfit
    · rw [hdown.bytes_eq]
      omega
    · rw [hdown.ptable_eq]
      exact hst.entry
  have hleft : (run (step iface) st (downloadEvents board data)).1.left =
      false := hdown.left_eq.trans hst.left
  have hidle : (run (step iface) st
      (downloadEvents board data)).1.downloadSize = 0 := hdown.idle
  simp only [flashEvents, run_append, run_cons, run_nil]
  rw [step_command hleft hidle, rxCommand_flash _ _ _ hcmd,
    List.drop_left' (by decide)]
  unfold stateReply
  dsimp only
  exact congrArg (fun r => r.2.mmc) (flash_of_target htarget)

variable (board) in
/-- A `multiflash:` of a whole image hands it to `write_to_ptn_emmc` too. -/
theorem run_pieceEvents_single (hmedium : iface.storageMedium = .emmc)
    (henv : ptn.has flagsWriteEnv = false) (hst : Between name ptn st 0)
    (hdata : data ≠ []) (hsize : data.length ≤ iface.transferBufferSize)
    (hfit : data.length ≤ ptn.length) :
    (run (step iface) st (pieceEvents board last name data)).1.mmc =
      (PtnWrite.perform ⟨ptn, 0, selectMultiflash
        (fastbootFlashFindPtn (received iface board st data).ptable name)
        (received iface board st data)⟩).2.2.mmc := by
  have hpos : 0 < data.length := List.length_pos_of_ne_nil hdata
  have hdown := received_downloaded board hmedium hst hdata hsize
  have hrec := hst.congr hdown.toSameFlash hdown.idle
  obtain ⟨hcmd, hlast, hname⟩ := multiflashPacket_spec last name
  have htarget := multiflashTarget_eq hmedium
    (by rw [hdown.bytes_eq]; omega) hrec.entry henv
    (by
      rw [hdown.bytes_eq, hrec.offset, Nat.add_zero]
      exact (Nat.mod_le _ _).trans hfit)
  rw [hrec.offset] at htarget
  have hleft : (run (step iface) st (downloadEvents board data)).1.left =
      false := hdown.left_eq.trans hst.left
  have hidle : (run (step iface) st
      (downloadEvents board data)).1.downloadSize = 0 := hdown.idle
  simp only [pieceEvents, run_append, run_cons, run_nil]
  rw [step_command hleft hidle, rxCommand_multiflash _ _ _ hcmd, hlast, hname]
  unfold stateReply
  dsimp only
  refine (congrArg (fun r => r.2.mmc) (multiflash_of_target htarget)).trans ?_
  dsimp only
  split
  · exact (advanceMultiflash_sameWriter _ _).mmc_eq
  · rfl

variable (board) in
/-- A raw image flashed in one piece stands at the start of the partition. -/
theorem run_flash (hmedium : iface.storageMedium = .emmc)
    (henv : ptn.has flagsWriteEnv = false) (hst : Between name ptn st 0)
    (hdata : data ≠ []) (hsize : data.length ≤ iface.transferBufferSize)
    (hraw : ∀ m, Memory.Holds m 0 data → headerMagic m ≠ sparseHeaderMagic)
    (hfit : data.length ≤ ptn.length) :
    PieceWritten ptn st
      (run (step iface) st (flashEvents board name data)).1 0 data := by
  have hlt : data.length < 2 ^ 31 :=
    lt_of_le_of_lt hsize iface.transferBufferSize_lt
  have hdown := received_downloaded board hmedium hst hdata hsize
  obtain ⟨-, -, hwritten⟩ := perform_raw
    (w := ⟨ptn, 0, received iface board st data⟩) data
    (by rw [hdown.mmc_eq]; exact hst.healthy)
    (by rw [if_pos rfl]; exact hraw _ hdown.buffer_holds)
    hdown.bytes_eq hdown.buffer_holds
    (by
      have hlimit := hst.limit
      rw [hdown.mmc_eq]
      unfold numSecVal mmcsdSectorSize
      dsimp only
      omega)
    hdata hlt
  obtain ⟨buf, hbuf, heq⟩ := hwritten.written_eq
  apply pieceWritten_of_transferred hlt hbuf
  rw [run_flashEvents board hmedium henv hst hdata hsize hfit, heq, hdown.mmc_eq]

end Piece

/-! ## All pieces of an image -/

/-- The events that flash an image in pieces. -/
def multiflashEvents (board : Board) (name : List UInt8) :
    List (List UInt8) → List Event
  | [] => []
  | [data] => pieceEvents board true name data
  | data :: next :: rest =>
      pieceEvents board false name data ++
        multiflashEvents board name (next :: rest)

section Pieces

variable {iface : Interface} {board : Board} {name : List UInt8}
  {ptn : Ptentry}

/-- Byte `p` of the partition, as far as it is known. -/
def ptnByte (ptn : Ptentry) (st : State) (p : ℕ) : Option UInt8 :=
  byteAt st.mmc.written emmcSlot ptn.start p

/-- Pieces that can be flashed from offset `o` on: not empty, and not too
large for the buffer and the partition; the first of them is not taken for a
sparse image. -/
structure Flashable (iface : Interface) (ptn : Ptentry) (o : ℕ)
    (pieces : List (List UInt8)) : Prop where
  nonempty : ∀ d ∈ pieces, d ≠ []
  size_le : ∀ d ∈ pieces, d.length ≤ iface.transferBufferSize
  fits : o + pieces.flatten.length ≤ ptn.length
  wrap : o + pieces.flatten.length < 2 ^ 32
  raw : o = 0 → ∀ d ∈ pieces.head?, ∀ m, Memory.Holds m 0 d →
    headerMagic m ≠ sparseHeaderMagic

theorem Flashable.tail {o : ℕ} {d : List UInt8} {pieces : List (List UInt8)}
    (h : Flashable iface ptn o (d :: pieces)) :
    Flashable iface ptn (o + d.length) pieces where
  nonempty e he := h.nonempty e (List.mem_cons_of_mem _ he)
  size_le e he := h.size_le e (List.mem_cons_of_mem _ he)
  fits := by
    have := h.fits
    simp only [List.flatten_cons, List.length_append] at this
    omega
  wrap := by
    have := h.wrap
    simp only [List.flatten_cons, List.length_append] at this
    omega
  raw := by
    intro hzero
    have := List.length_pos_of_ne_nil (h.nonempty d List.mem_cons_self)
    omega

variable (board) in
/-- The first of several pieces. -/
theorem Flashable.run_head {o : ℕ} {st : State} {d : List UInt8}
    {pieces : List (List UInt8)} (hmedium : iface.storageMedium = .emmc)
    (henv : ptn.has flagsWriteEnv = false) (hst : Between name ptn st o)
    (h : Flashable iface ptn o (d :: pieces)) (last : Bool) :
    let st' := (run (step iface) st (pieceEvents board last name d)).1
    PieceWritten ptn st st' o d ∧
      (last = false → Between name ptn st' (o + d.length)) := by
  have hfits := h.fits
  have hwrap := h.wrap
  simp only [List.flatten_cons, List.length_append] at hfits hwrap
  exact run_piece board hmedium henv hst (h.nonempty d List.mem_cons_self)
    (h.size_le d List.mem_cons_self) (fun ho => h.raw ho d rfl) (by omega)
    (by omega)

/-- Behind a piece at an offset that is a multiple of the sector size, the
partition starts with the bytes in front of it and the piece. -/
theorem PieceWritten.append {st st' : State} {done data : List UInt8}
    (h : PieceWritten ptn st st' done.length data)
    (haligned : done.length % 512 = 0)
    (hdone : ∀ p < done.length, ptnByte ptn st p = done[p]?) :
    ∀ p < (done ++ data).length, ptnByte ptn st' p = (done ++ data)[p]? := by
  intro p hp
  rw [List.length_append] at hp
  rcases Nat.lt_or_ge p done.length with hlt | hge
  · rw [List.getElem?_append_left hlt, ← hdone p hlt]
    exact h.before p (by omega)
  · have hstart : done.length / 512 * 512 = done.length := by omega
    rw [List.getElem?_append_right hge]
    have hinside := h.inside p (by omega) (by omega)
    rwa [hstart] at hinside

variable (board) in
/-- Pieces cut at multiples of the sector size end up as the image. -/
theorem run_pieces_aligned (hmedium : iface.storageMedium = .emmc)
    (henv : ptn.has flagsWriteEnv = false) (pieces : List (List UInt8))
    {st : State} (done : List UInt8) (hne : pieces ≠ [])
    (hst : Between name ptn st done.length)
    (hpieces : Flashable iface ptn done.length pieces)
    (haligned : done.length % 512 = 0)
    (hcut : ∀ d ∈ pieces.dropLast, d.length % 512 = 0)
    (hdone : ∀ p < done.length, ptnByte ptn st p = done[p]?) :
    ∀ p < (done ++ pieces.flatten).length,
      ptnByte ptn
        (run (step iface) st (multiflashEvents board name pieces)).1 p =
          (done ++ pieces.flatten)[p]? := by
  induction pieces generalizing st done with
  | nil => exact absurd rfl hne
  | cons d pieces ih =>
      cases pieces with
      | nil =>
          obtain ⟨hwritten, -⟩ := hpieces.run_head board hmedium
            henv hst true
          simpa [multiflashEvents] using hwritten.append haligned hdone
      | cons e rest =>
          obtain ⟨hwritten, hnext⟩ := hpieces.run_head board hmedium
            henv hst false
          have hd : d.length % 512 = 0 := hcut d (by simp)
          have hlen : (done ++ d).length = done.length + d.length := by simp
          have hrest := ih (done ++ d) (by simp)
            (by rw [hlen]; exact hnext rfl) (by rw [hlen]; exact hpieces.tail)
            (by rw [hlen]; omega)
            (fun f hf => hcut f (by
              rw [List.dropLast_cons_of_ne_nil (by simp)]
              exact List.mem_cons_of_mem _ hf))
            (hwritten.append haligned hdone)
          simpa [multiflashEvents, run_append, List.append_assoc] using hrest

variable (board) in
/-- A sector that a later piece starts in is overwritten from its start. -/
theorem run_pieces_zero (hmedium : iface.storageMedium = .emmc)
    (henv : ptn.has flagsWriteEnv = false) (pieces : List (List UInt8))
    {st : State} {o a : ℕ} (hne : pieces ≠ [])
    (hst : Between name ptn st o) (hpieces : Flashable iface ptn o pieces)
    (hzero : ∀ d ∈ pieces, ∀ b ∈ d, b = 0) (ha : a % 512 = 0)
    (hsector : a / 512 = o / 512 ∨
      (a / 512 < o / 512 ∧ ptnByte ptn st a = some 0)) :
    ptnByte ptn (run (step iface) st (multiflashEvents board name pieces)).1
      a = some 0 := by
  induction pieces generalizing st o with
  | nil => exact absurd rfl hne
  | cons d pieces ih =>
      have hd : 0 < d.length :=
        List.length_pos_of_ne_nil (hpieces.nonempty d List.mem_cons_self)
      -- What the piece leaves at the place in question.
      have hpiece : ∀ st', PieceWritten ptn st st' o d →
          ptnByte ptn st' a = some 0 := by
        intro st' hwritten
        rcases hsector with hsame | ⟨hlt, hold⟩
        · have hstart : a - o / 512 * 512 = 0 := by omega
          have hinside := hwritten.inside a (by omega) (by omega)
          rw [hstart, List.getElem?_eq_getElem hd,
            hzero d List.mem_cons_self _ (List.getElem_mem hd)] at hinside
          exact hinside
        · rw [← hold]
          exact hwritten.before a hlt
      cases pieces with
      | nil =>
          obtain ⟨hwritten, -⟩ := hpieces.run_head board hmedium
            henv hst true
          exact hpiece _ hwritten
      | cons e rest =>
          obtain ⟨hwritten, hnext⟩ := hpieces.run_head board hmedium
            henv hst false
          have hrest := ih (by simp) (hnext rfl) hpieces.tail
            (fun f hf => hzero f (List.mem_cons_of_mem _ hf))
            (by
              have hzero' := hpiece _ hwritten
              rcases Nat.lt_or_ge (a / 512) ((o + d.length) / 512) with hlt | hge
              · exact Or.inr ⟨hlt, hzero'⟩
              · refine Or.inl ?_
                rcases hsector with hsame | ⟨hlt, -⟩ <;> omega)
          simpa [multiflashEvents, run_append] using hrest

end Pieces

end TateFirmware.Fastboot
