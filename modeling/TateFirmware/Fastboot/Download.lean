import TateFirmware.Fastboot.Dispatch

/-!
# Downloads into the transfer buffer

What holds of the download counters and of the transfer buffer between any two
events, and what the packets of one download do.  The only store that can miss
the buffer is the NUL byte `parse_env` puts behind the text of an environment
partition, when the text fills the buffer.
-/

namespace TateFirmware.Fastboot

open Support LibGeneric

/-- The counters of a download, between two events. -/
structure DownloadInv (iface : Interface) (st : State) : Prop where
  size_le : st.downloadSize ≤ iface.transferBufferSize
  bytes_lt : st.downloadSize ≠ 0 → st.downloadBytes < st.downloadSize
  bytes_le : st.downloadBytes ≤ iface.transferBufferSize
  unpadded_le : st.downloadBytesUnpadded ≤ iface.transferBufferSize
  error_eq : st.downloadError = 0
  high_le : st.transferBuffer.high ≤ iface.transferBufferSize

/-- Two states with the same counters and the same transfer buffer. -/
structure SameDownload (st st' : State) : Prop where
  size_eq : st'.downloadSize = st.downloadSize
  bytes_eq : st'.downloadBytes = st.downloadBytes
  unpadded_eq : st'.downloadBytesUnpadded = st.downloadBytesUnpadded
  error_eq : st'.downloadError = st.downloadError
  buffer_eq : st'.transferBuffer = st.transferBuffer

theorem SameDownload.refl (st : State) : SameDownload st st :=
  ⟨rfl, rfl, rfl, rfl, rfl⟩

theorem SameDownload.trans {st st' st'' : State} (h : SameDownload st st')
    (h' : SameDownload st' st'') : SameDownload st st'' where
  size_eq := h'.size_eq.trans h.size_eq
  bytes_eq := h'.bytes_eq.trans h.bytes_eq
  unpadded_eq := h'.unpadded_eq.trans h.unpadded_eq
  error_eq := h'.error_eq.trans h.error_eq
  buffer_eq := h'.buffer_eq.trans h.buffer_eq

theorem DownloadInv.congr {iface : Interface} {st st' : State}
    (hst : DownloadInv iface st) (h : SameDownload st st') :
    DownloadInv iface st' := by
  obtain ⟨h1, h2, h3, h4, h5⟩ := h
  obtain ⟨i1, i2, i3, i4, i5, i6⟩ := hst
  constructor <;> simp only [h1, h2, h3, h4, h5] <;> assumption

/-! ## Commands that leave the download alone -/

theorem writeToPtnEmmc_sameDownload (ptn : Ptentry) (offset : ℕ) (st : State) :
    SameDownload st (writeToPtnEmmc ptn offset st).2.2 := by
  have hbegin : SameDownload st
      (if offset = 0 then beginWrite ptn st else st) := by
    split
    · unfold beginWrite
      dsimp only
      split <;> exact ⟨rfl, rfl, rfl, rfl, rfl⟩
    · exact SameDownload.refl st
  refine hbegin.trans ?_
  unfold writeToPtnEmmc
  dsimp only
  generalize (if offset = 0 then beginWrite ptn st else st) = begun
  split
  · unfold writeSparse
    dsimp only
    split <;> exact ⟨rfl, rfl, rfl, rfl, rfl⟩
  · unfold writeRaw
    dsimp only
    split <;> exact ⟨rfl, rfl, rfl, rfl, rfl⟩

theorem eraseEmmc_sameDownload (ptn : Ptentry) (st : State) :
    SameDownload st (eraseEmmc ptn st).2 := by
  unfold eraseEmmc
  dsimp only
  exact ⟨rfl, rfl, rfl, rfl, rfl⟩

theorem erase_sameDownload (iface : Interface) (name : List UInt8)
    (st : State) : SameDownload st (erase iface name st).2 := by
  unfold erase
  split
  · split <;> exact SameDownload.refl st
  · have hset : SameDownload st { st with mmcControllerNo := emmcSlot.val } :=
      ⟨rfl, rfl, rfl, rfl, rfl⟩
    dsimp only
    split
    · exact hset
    · exact hset.trans (eraseEmmc_sameDownload _ _)

theorem mmcerase_sameDownload (controller name : List UInt8) (st : State) :
    SameDownload st (mmcerase controller name st).2 := by
  unfold mmcerase
  have hset : SameDownload st
      { st with mmcControllerNo := (simpleStrtoul controller 10).1 } :=
    ⟨rfl, rfl, rfl, rfl, rfl⟩
  dsimp only
  split
  · exact hset
  · exact hset.trans (eraseEmmc_sameDownload _ _)

theorem mmcwrite_sameDownload (controller name : List UInt8) (st : State) :
    SameDownload st (mmcwrite controller name st).2 := by
  unfold mmcwrite
  split
  · exact SameDownload.refl st
  · have hset : SameDownload st
        { st with mmcControllerNo := (simpleStrtoul controller 10).1 } :=
      ⟨rfl, rfl, rfl, rfl, rfl⟩
    dsimp only
    split
    · exact hset
    · exact hset.trans (writeToPtnEmmc_sameDownload _ 0 _)

theorem multiflash_sameDownload (iface : Interface) (last : Bool)
    (name : List UInt8) (st : State) :
    SameDownload st (multiflash iface last name st).2 := by
  unfold multiflash
  split
  · exact SameDownload.refl st
  unfold multiflashEmmc
  split
  · exact SameDownload.refl st
  have hselect : ∀ ptn, SameDownload st (selectMultiflash ptn st) := by
    intro ptn
    unfold selectMultiflash
    split <;> exact ⟨rfl, rfl, rfl, rfl, rfl⟩
  refine (hselect (fastbootFlashFindPtn st.ptable name)).trans ?_
  dsimp only
  generalize selectMultiflash (fastbootFlashFindPtn st.ptable name) st = sel
  split
  · exact SameDownload.refl sel
  rename_i ptn _
  split
  · exact SameDownload.refl sel
  split
  · exact SameDownload.refl sel
  refine (writeToPtnEmmc_sameDownload ptn sel.multiflashOffset sel).trans ?_
  dsimp only
  split
  · unfold advanceMultiflash
    split <;> exact ⟨rfl, rfl, rfl, rfl, rfl⟩
  · exact SameDownload.refl _

/-! ## Flashing -/

/-- A `flash:` of the environment on NAND has room for the NUL byte behind the
text, or a text with nothing to save. -/
def EnvTextFits (iface : Interface) (cmdbuf : List UInt8) (st : State) :
    Prop :=
  ∀ ptn, iface.storageMedium = .nand → startsWith cmdbuf "flash:" = true →
    st.downloadBytes ≠ 0 → findEntry st.ptable (cmdbuf.drop 6) = some ptn →
    ptn.has flagsWriteEnv = true →
    st.downloadBytesUnpadded < iface.transferBufferSize ∨
      BlankText st.downloadBytesUnpadded st.transferBuffer

theorem writeToPtn_sameDownload (ptn : Ptentry) (st : State) :
    SameDownload st (writeToPtn ptn st).2 := ⟨rfl, rfl, rfl, rfl, rfl⟩

theorem flashNand_inv {iface : Interface} {name : List UInt8} {st : State}
    (hst : DownloadInv iface st)
    (hfits : ∀ ptn, st.downloadBytes ≠ 0 → findEntry st.ptable name = some ptn →
      ptn.has flagsWriteEnv = true →
      st.downloadBytesUnpadded < iface.transferBufferSize ∨
        BlankText st.downloadBytesUnpadded st.transferBuffer) :
    DownloadInv iface (flashNand name st).2 := by
  unfold flashNand
  split
  · exact hst
  rename_i hbytes
  cases hentry : findEntry st.ptable name with
  | none => exact hst
  | some ptn =>
      dsimp only
      split
      · exact hst
      split
      · rename_i henv
        have hbuffer : (saveenvToPtn st.downloadBytesUnpadded
            st.transferBuffer).buff.high ≤ iface.transferBufferSize := by
          rcases hfits ptn hbytes hentry henv with hroom | hblank
          · exact saveenvToPtn_high_le hroom hst.high_le
          · rw [saveenvToPtn_of_blank hblank]
            exact hst.high_le
        split <;>
          exact ⟨hst.size_le, hst.bytes_lt, hst.bytes_le, hst.unpadded_le,
            hst.error_eq, hbuffer⟩
      · split <;> exact hst.congr (writeToPtn_sameDownload ptn st)

/-- Turning line feeds into NUL bytes stores below the end of the text. -/
theorem foldl_store_high_le (bound : ℕ) (l : List ℕ)
    (hl : ∀ i ∈ l, i < bound) (buffer : TrackedMemory UInt8)
    (hbuffer : buffer.high ≤ bound) :
    (l.foldl (fun b i => if b.cell i = 0x0a then b.store i 0x00 else b)
      buffer).high ≤ bound := by
  induction l generalizing buffer with
  | nil => exact hbuffer
  | cons i l ih =>
      rw [List.forall_mem_cons] at hl
      apply ih hl.2
      dsimp only
      split
      · exact TrackedMemory.store_high_le 0 hbuffer hl.1
      · exact hbuffer

theorem flashEmmc_inv {iface : Interface} {name : List UInt8} {st : State}
    (hst : DownloadInv iface st) : DownloadInv iface (flashEmmc name st).2 := by
  unfold flashEmmc
  split
  · exact hst
  split
  · exact hst
  rename_i ptn _
  split
  · exact hst
  split
  · have hbuffer := foldl_store_high_le iface.transferBufferSize
      (List.range st.downloadBytes)
      (fun i hi => lt_of_lt_of_le (List.mem_range.mp hi) hst.bytes_le)
      st.transferBuffer hst.high_le
    exact ⟨hst.size_le, hst.bytes_lt, hst.bytes_le, hst.unpadded_le,
      hst.error_eq, hbuffer⟩
  · exact hst.congr (writeToPtnEmmc_sameDownload ptn 0 st)

/-- A download is accepted only if it fits the transfer buffer. -/
theorem download_inv {iface : Interface} {size : List UInt8} {st : State}
    (hst : DownloadInv iface st) :
    DownloadInv iface (download iface size st).2 := by
  have hunpadded := hst.unpadded_le
  have hhigh := hst.high_le
  unfold download
  dsimp only
  split
  · rename_i hzero
    exact ⟨by simp [hzero], by simp [hzero], by simp, hunpadded, rfl, hhigh⟩
  split
  · exact ⟨by simp, by simp, by simp, hunpadded, rfl, hhigh⟩
  · rename_i hzero hlarge
    exact ⟨not_lt.mp hlarge, fun _ => Nat.pos_of_ne_zero hzero, by simp,
      hunpadded, rfl, hhigh⟩

theorem rxCommand_inv {iface : Interface} {board : Board}
    {cmdbuf : List UInt8} {st : State} (hst : DownloadInv iface st)
    (hfits : EnvTextFits iface cmdbuf st) :
    DownloadInv iface (rxCommand iface board cmdbuf st).st := by
  have hconfirmed : ∀ st, DownloadInv iface st →
      DownloadInv iface { st with fastbootConfirmed := true } :=
    fun st h => h.congr ⟨rfl, rfl, rfl, rfl, rfl⟩
  by_cases hcmd : startsWith cmdbuf "flash:" = true
  · rw [rxCommand_flash iface board st hcmd]
    unfold stateReply flash
    cases hmedium : iface.storageMedium with
    | nand =>
        exact flashNand_inv (hconfirmed st hst) fun ptn hbytes hentry henv =>
          hfits ptn hmedium hcmd hbytes hentry henv
    | emmc => exact flashEmmc_inv (hconfirmed st hst)
  · refine rxCommand_keeps ?_ hconfirmed
      (fun st h => h.congr ⟨rfl, rfl, rfl, rfl, rfl⟩) hst
    exact
      { outside := fun _ st _ _ h => h.congr ⟨rfl, rfl, rfl, rfl, rfl⟩
        erase := fun _ st h => h.congr (erase_sameDownload iface _ st)
        mmcerase := fun _ st h => h.congr (mmcerase_sameDownload _ _ st)
        download := fun _ st h => download_inv h
        mmcwrite := fun _ st h => h.congr (mmcwrite_sameDownload _ _ st)
        flash := fun h => absurd h hcmd
        multiflash := fun _ st h =>
          h.congr (multiflash_sameDownload iface _ _ st) }

/-! ## Data packets -/

/-- What the padding behind a finished download changes: the bytes behind the
download and their count. -/
structure Padded (iface : Interface) (st st' : State) : Prop where
  size_eq : st'.downloadSize = st.downloadSize
  unpadded_eq : st'.downloadBytesUnpadded = st.downloadBytesUnpadded
  error_eq : st'.downloadError = st.downloadError
  left_eq : st'.left = st.left
  bytes_le : st'.downloadBytes ≤ iface.transferBufferSize
  high_le : st'.transferBuffer.high ≤ iface.transferBufferSize
  cell_eq : ∀ k < st.downloadBytes,
    st'.transferBuffer.cell k = st.transferBuffer.cell k

theorem padDownload_padded {iface : Interface} (pad : ℕ) {st : State}
    (hbytes : st.downloadBytes ≤ iface.transferBufferSize)
    (hhigh : st.transferBuffer.high ≤ iface.transferBufferSize) :
    Padded iface st (padDownload iface pad st) := by
  induction pad generalizing st with
  | zero => exact ⟨rfl, rfl, rfl, rfl, hbytes, hhigh, fun _ _ => rfl⟩
  | succ pad ih =>
      rw [padDownload]
      split
      · exact ⟨rfl, rfl, rfl, rfl, hbytes, hhigh, fun _ _ => rfl⟩
      · rename_i hroom
        have hroom := not_le.mp hroom
        obtain ⟨h1, h2, h3, h4, h5, h6, h7⟩ := @ih { st with
            transferBuffer := st.transferBuffer.store st.downloadBytes 0
            downloadBytes := st.downloadBytes + 1 }
          hroom (TrackedMemory.store_high_le 0 hhigh hroom)
        refine ⟨h1, h2, h3, h4, h5, h6, fun k hk => ?_⟩
        rw [h7 k (Nat.lt_succ_of_lt hk)]
        exact Memory.store_of_ne 0 (Nat.ne_of_lt hk)

theorem finishNand_padded (iface : Interface) (st : State)
    (hbytes : st.downloadBytes ≤ iface.transferBufferSize)
    (hhigh : st.transferBuffer.high ≤ iface.transferBufferSize) :
    Padded iface { st with downloadBytesUnpadded := st.downloadBytes }
      (finishNand iface st) := by
  have hsame : Padded iface { st with downloadBytesUnpadded := st.downloadBytes }
      { st with downloadBytesUnpadded := st.downloadBytes } :=
    ⟨rfl, rfl, rfl, rfl, hbytes, hhigh, fun _ _ => rfl⟩
  unfold finishNand
  dsimp only
  split
  · exact hsame
  · split
    · exact hsame
    · exact padDownload_padded _ hbytes hhigh

theorem transferSize_eq {iface : Interface} {st : State} (n : ℕ)
    (hst : DownloadInv iface st) (hdown : st.downloadSize ≠ 0) :
    transferSize st n = min n (st.downloadSize - st.downloadBytes) := by
  have hlt := hst.bytes_lt hdown
  have hsize := hst.size_le
  have hbuffer := iface.transferBufferSize_lt
  unfold transferSize
  congr 1
  omega

/-- A packet that does not complete the download is appended to it. -/
theorem rxData_more {iface : Interface} {st : State} {buffer : List UInt8}
    (hst : DownloadInv iface st) (hdown : st.downloadSize ≠ 0)
    (hne : buffer ≠ [])
    (hmore : st.downloadBytes + buffer.length < st.downloadSize) :
    rxData iface buffer st =
      ⟨{ st with
          transferBuffer := st.transferBuffer.copyIn st.downloadBytes buffer
          downloadBytes := st.downloadBytes + buffer.length }, [], 0⟩ := by
  have hsize := hst.size_le
  have hbuffer := iface.transferBufferSize_lt
  have hn : transferSize st buffer.length = buffer.length := by
    rw [transferSize_eq _ hst hdown]
    omega
  have hmod : (st.downloadBytes + buffer.length) % 2 ^ 32 =
      st.downloadBytes + buffer.length := Nat.mod_eq_of_lt (by omega)
  simp only [rxData, if_neg hne, hn, List.take_length, hmod,
    if_neg (not_le.mpr hmore)]

/-- What the packet that completes the download of `payload` leaves. -/
structure Completed (iface : Interface) (payload : List UInt8)
    (reply : Reply) : Prop where
  inv : DownloadInv iface reply.st
  sent_eq : reply.sent = [text "OKAY"]
  size_eq : reply.st.downloadSize = 0
  buffer_holds : Memory.Holds reply.st.transferBuffer.cell 0 payload

/-- A packet that completes the download. -/
theorem rxData_last {iface : Interface} {st : State} {buffer got : List UInt8}
    (hst : DownloadInv iface st) (hdown : st.downloadSize ≠ 0)
    (hne : buffer ≠ []) (hgot : Memory.Holds st.transferBuffer.cell 0 got)
    (hbytes : got.length = st.downloadBytes)
    (hlast : st.downloadSize ≤ st.downloadBytes + buffer.length) :
    Completed iface ((got ++ buffer).take st.downloadSize)
      (rxData iface buffer st) := by
  have hlt := hst.bytes_lt hdown
  have hsize := hst.size_le
  have hbuffer := iface.transferBufferSize_lt
  have hn : transferSize st buffer.length =
      st.downloadSize - st.downloadBytes := by
    rw [transferSize_eq _ hst hdown]
    omega
  have hmod : (st.downloadBytes + (st.downloadSize - st.downloadBytes)) %
      2 ^ 32 = st.downloadSize := by omega
  have hpayload : (got ++ buffer).take st.downloadSize =
      got ++ buffer.take (st.downloadSize - st.downloadBytes) := by
    rw [List.take_append, List.take_of_length_le (by omega), hbytes]
  have hhigh : (st.transferBuffer.copyIn st.downloadBytes (buffer.take
      (st.downloadSize - st.downloadBytes))).high ≤
        iface.transferBufferSize := by
    apply TrackedMemory.copyIn_high_le hst.high_le
    rw [List.length_take]
    omega
  have hholds : Memory.Holds (st.transferBuffer.copyIn st.downloadBytes
      (buffer.take (st.downloadSize - st.downloadBytes))).cell 0
        (got ++ buffer.take (st.downloadSize - st.downloadBytes)) := by
    have := hgot.append_copyIn
      (buffer.take (st.downloadSize - st.downloadBytes))
    simpa [hbytes] using this
  rw [hpayload]
  unfold rxData
  simp only [if_neg hne, hn, hmod, le_refl, if_true]
  cases iface.storageMedium with
  | emmc =>
      exact ⟨⟨by simp, by simp, hsize, hst.unpadded_le, hst.error_eq, hhigh⟩,
        by simp [hst.error_eq], rfl, hholds⟩
  | nand =>
      have hpad := finishNand_padded iface
        { st with
          transferBuffer := st.transferBuffer.copyIn st.downloadBytes
            (buffer.take (st.downloadSize - st.downloadBytes))
          downloadBytes := st.downloadSize
          downloadSize := 0 } hsize hhigh
      have hzero := hpad.size_eq
      refine ⟨⟨?_, ?_, hpad.bytes_le, ?_, ?_, hpad.high_le⟩,
        by simp [hst.error_eq], hzero, ?_⟩
      · rw [hzero]
        exact Nat.zero_le _
      · intro h
        exact absurd hzero h
      · rw [hpad.unpadded_eq]
        exact hsize
      · rw [hpad.error_eq]
        exact hst.error_eq
      · refine hholds.congr fun k _ hk => hpad.cell_eq k ?_
        simp only [List.length_append, List.length_take] at hk
        change k < st.downloadSize
        omega

theorem rxData_inv {iface : Interface} {st : State} (buffer : List UInt8)
    (hst : DownloadInv iface st) (hdown : st.downloadSize ≠ 0) :
    DownloadInv iface (rxData iface buffer st).st := by
  by_cases hne : buffer = []
  · rw [rxData, if_pos hne]
    exact hst
  rcases Nat.lt_or_ge (st.downloadBytes + buffer.length) st.downloadSize
    with hmore | hlast
  · rw [rxData_more hst hdown hne hmore]
    have hsize := hst.size_le
    exact ⟨hsize, fun _ => hmore, by dsimp only; omega, hst.unpadded_le,
      hst.error_eq, TrackedMemory.copyIn_high_le hst.high_le (by omega)⟩
  · exact (rxData_last hst hdown hne
      (Memory.holds_read st.transferBuffer.cell 0 st.downloadBytes)
      (Memory.read_length _ _ _) hlast).inv

/-! ## Every event -/

/-- The side condition on an event: a `flash:` of the environment has room
for the NUL byte behind the text. -/
def RoomForNul (iface : Interface) (st : State) : Event → Prop
  | .packet buffer _ =>
      st.left = false → st.downloadSize = 0 → EnvTextFits iface buffer st
  | .reset => True

theorem step_inv {iface : Interface} (st : State) (e : Event)
    (hroom : RoomForNul iface st e) (hst : DownloadInv iface st) :
    DownloadInv iface (step iface st e).1 := by
  unfold step
  split
  · exact hst
  rename_i hleft
  cases e with
  | reset =>
      exact ⟨by simp [resetHandler], by simp [resetHandler],
        by simp [resetHandler], by simp [resetHandler], rfl, hst.high_le⟩
  | packet buffer board =>
      dsimp only
      unfold rxHandler
      split
      · rename_i hdown
        exact rxData_inv buffer hst hdown
      · rename_i hdown
        exact rxCommand_inv hst
          (hroom (Bool.not_eq_true _ ▸ hleft) (not_not.mp hdown))

theorem initialState_inv (iface : Interface) (ptable : List Ptentry)
    (mmc : Mmc.Host) (buffer envData : Memory UInt8) :
    DownloadInv iface (initialState ptable mmc buffer envData) :=
  ⟨by simp [initialState], by simp [initialState], by simp [initialState],
    by simp [initialState], rfl, by simp [initialState]⟩

/-! ## Transfers -/

/-- A data packet, with the board it is handled on. -/
abbrev Packet := List UInt8 × Board

def Packet.event (p : Packet) : Event := .packet p.1 p.2

/-- The bytes of a list of packets. -/
def payload (packets : List Packet) : List UInt8 :=
  (packets.map Prod.fst).flatten

@[simp] theorem payload_nil : payload [] = [] := rfl

@[simp] theorem payload_cons (p : Packet) (packets : List Packet) :
    payload (p :: packets) = p.1 ++ payload packets := rfl

/-- The packets complete a download of `n` bytes of which `got` is there
already: the packet that delivers the last byte is the only one that is
answered, the answer is `OKAY`, and the buffer then holds the bytes. -/
def CompletesDownload (iface : Interface) (st : State) (n : ℕ)
    (got : List UInt8) (packets : List Packet) : Prop :=
  ∃ before last after, packets = before ++ last :: after ∧
    (got ++ payload before).length < n ∧
    n ≤ (got ++ payload (before ++ [last])).length ∧
    (run (step iface) st (before.map Packet.event)).2 = [] ∧
    let done := step iface (run (step iface) st (before.map Packet.event)).1
      last.event
    done.2 = [text "OKAY"] ∧ done.1.downloadSize = 0 ∧
      done.1.transferBuffer.cell.read 0 n = (got ++ payload packets).take n

theorem completesDownload {iface : Interface} {st : State}
    {got : List UInt8} {packets : List Packet} (hst : DownloadInv iface st)
    (hleft : st.left = false) (hdown : st.downloadSize ≠ 0)
    (hgot : Memory.Holds st.transferBuffer.cell 0 got)
    (hbytes : got.length = st.downloadBytes)
    (hne : ∀ p ∈ packets, p.1 ≠ [])
    (htotal : st.downloadSize ≤ (got ++ payload packets).length) :
    CompletesDownload iface st st.downloadSize got packets := by
  induction packets generalizing st got with
  | nil =>
      have := hst.bytes_lt hdown
      simp only [payload_nil, List.append_nil] at htotal
      omega
  | cons p packets ih =>
      rw [List.forall_mem_cons] at hne
      have hstep : step iface st p.event =
          ((rxData iface p.1 st).st, (rxData iface p.1 st).sent) := by
        simp [step, hleft, Packet.event, rxHandler, hdown]
      rcases Nat.lt_or_ge (st.downloadBytes + p.1.length) st.downloadSize
        with hmore | hlast
      · -- The packet is appended and the rest completes the download.
        rw [rxData_more hst hdown hne.1 hmore] at hstep
        have hinv : DownloadInv iface (step iface st p.event).1 := by
          rw [hstep]
          have := rxData_inv p.1 hst hdown
          rwa [rxData_more hst hdown hne.1 hmore] at this
        have hholds := hgot.append_copyIn p.1
        rw [Nat.zero_add, hbytes] at hholds
        obtain ⟨before, last, after, hsplit, hlt, hle, hquiet, hdone⟩ :=
          @ih (step iface st p.event).1 (got ++ p.1) hinv
            (by rw [hstep]; exact hleft) (by rw [hstep]; exact hdown)
            (by rw [hstep]; exact hholds)
            (by rw [hstep]; simp [hbytes]) hne.2
            (by rw [hstep]; simpa [List.append_assoc] using htotal)
        rw [hstep] at hlt hle hquiet hdone
        refine ⟨p :: before, last, after, by rw [hsplit]; rfl, ?_, ?_, ?_, ?_⟩
        · simpa [List.append_assoc] using hlt
        · simpa [List.append_assoc] using hle
        · simpa [hstep] using hquiet
        · simpa [hstep, List.append_assoc] using hdone
      · have hdone := rxData_last hst hdown hne.1 hgot hbytes hlast
        refine ⟨[], p, packets, rfl, ?_, ?_, rfl, ?_⟩
        · have := hst.bytes_lt hdown
          simpa [hbytes] using this
        · simpa [hbytes] using hlast
        · simp only [List.map_nil, run_nil, hstep]
          refine ⟨hdone.sent_eq, hdone.size_eq, ?_⟩
          have hread := hdone.buffer_holds.read_eq
          have hlen : ((got ++ p.1).take st.downloadSize).length =
              st.downloadSize := by
            simp only [List.length_take, List.length_append]
            omega
          rw [hlen] at hread
          have hle : st.downloadSize ≤ (got ++ p.1).length := by
            simp only [List.length_append]
            omega
          rw [hread, payload_cons, ← List.append_assoc,
            List.take_append_of_le_length hle]

/-- The command packet is an accepted `download:` of `n` bytes. -/
def AcceptsDownload (iface : Interface) (st : State) (command : Packet)
    (n : ℕ) : Prop :=
  st.left = false ∧ st.downloadSize = 0 ∧
    startsWith command.1 "download:" = true ∧
    (simpleStrtoul (command.1.drop 9) 16).1 = n ∧
    0 < n ∧ n ≤ iface.transferBufferSize

theorem step_of_acceptsDownload {iface : Interface} {st : State}
    {command : Packet} {n : ℕ} (h : AcceptsDownload iface st command n) :
    step iface st command.event =
      ({ st with
          fastbootConfirmed := true
          downloadSize := n
          downloadBytes := 0
          downloadError := 0 }, [text "DATA" ++ formatHex08 n]) := by
  obtain ⟨hleft, hidle, hcmd, hn, hpos, hle⟩ := h
  have hzero : n ≠ 0 := Nat.ne_of_gt hpos
  rw [Packet.event, step_command hleft hidle, rxCommand_download _ _ _ hcmd]
  simp only [stateReply, download, hn, hzero, if_false,
    if_neg (not_lt.mpr hle)]

/-- The download protocol in a state: no store has missed the buffer, the
counters of a download in progress are within it, and every accepted download
is answered once, by the packet that delivers its last byte. -/
structure DownloadSafe (iface : Interface) (st : State) : Prop where
  counters : st.downloadSize ≠ 0 →
    st.downloadBytes ≤ st.downloadSize ∧
      st.downloadSize ≤ iface.transferBufferSize
  stores : st.transferBuffer.high ≤ iface.transferBufferSize
  transfers : ∀ command n, AcceptsDownload iface st command n →
    ∀ packets : List Packet, (∀ p ∈ packets, p.1 ≠ []) →
      n ≤ (payload packets).length →
      (step iface st command.event).2 = [text "DATA" ++ formatHex08 n] ∧
        CompletesDownload iface (step iface st command.event).1 n [] packets

theorem DownloadInv.safe {iface : Interface} {st : State}
    (hst : DownloadInv iface st) : DownloadSafe iface st where
  counters hdown := ⟨(hst.bytes_lt hdown).le, hst.size_le⟩
  stores := hst.high_le
  transfers := by
    intro command n haccept packets hne htotal
    rw [step_of_acceptsDownload haccept]
    obtain ⟨hleft, -, -, -, hpos, hle⟩ := haccept
    exact ⟨rfl, completesDownload
      ⟨hle, fun _ => hpos, by simp, hst.unpadded_le, rfl, hst.high_le⟩ hleft
      (Nat.ne_of_gt hpos) (Memory.holds_nil _ _) rfl hne htotal⟩

/-- In every run whose `flash:` commands leave room for the NUL byte, every
state reached is safe. -/
theorem download_safe (iface : Interface) (ptable : List Ptentry)
    (mmc : Mmc.Host) (buffer envData : Memory UInt8) (events : List Event)
    (hroom : StepsMeet (step iface) (RoomForNul iface)
      (initialState ptable mmc buffer envData) events) :
    DownloadSafe iface
      (run (step iface) (initialState ptable mmc buffer envData) events).1 :=
  (run_invariant_of_stepsMeet step_inv
    (initialState_inv iface ptable mmc buffer envData) hroom).safe

/-! ## A text that fills the buffer -/

/-- A NAND board whose transfer buffer has eight bytes. -/
def smallNand : Interface where
  productName := none
  serialNo := none
  procRev := none
  procType := none
  storageMedium := .nand
  nandBlockSize := 2048
  transferBufferSize := 8
  transferBufferSize_lt := eight_lt
  nandBlockSize_pos := blockSize_pos
  nandBlockSize_lt := blockSize_lt

/-- Power-up of a board with one environment partition. -/
def environmentBoard : State :=
  initialState [⟨text "environment", 0, 1024, flagsWriteEnv⟩] idleHost
    (fun _ => 0) (fun _ => 0)

/-- Download an environment text and flash it. -/
def flashText (size env : String) : List Event :=
  [.packet (text "download:" ++ text size) quietBoard,
    .packet (text env) quietBoard,
    .packet (text "flash:environment") quietBoard]

theorem download_safe_flashText :
    DownloadSafe smallNand
      (run (step smallNand) environmentBoard (flashText "4" "a b\n")).1 := by
  apply download_safe
  refine ⟨?_, ?_, ?_, trivial⟩
  · intro _ _ ptn _ hflash
    exact absurd hflash (by decide)
  · intro _ hdown
    exact absurd hdown (by decide)
  · intro _ _ ptn _ _ _ _ _
    exact Or.inl (by decide)

/-- A text of eight bytes: the NUL byte goes behind the buffer. -/
theorem download_not_safe :
    ¬ ∀ (iface : Interface) (ptable : List Ptentry) (mmc : Mmc.Host)
      (buffer envData : Memory UInt8) (events : List Event),
      DownloadSafe iface
        (run (step iface) (initialState ptable mmc buffer envData) events).1 := by
  intro hsafe
  have h := (hsafe smallNand [⟨text "environment", 0, 1024, flagsWriteEnv⟩]
    idleHost (fun _ => 0) (fun _ => 0) (flashText "8" "abc def\n")).stores
  exact absurd h (by decide)

end TateFirmware.Fastboot
