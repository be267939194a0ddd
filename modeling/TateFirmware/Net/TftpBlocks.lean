import TateFirmware.Net.Tftp

/-!
# What a TFTP client holds

A client has taken the first `r` blocks of a file when memory holds them at
the load address and the block counters have arrived at block `r`.  The next
block takes it to `r + 1`, wherever the 16-bit block number wraps.
-/

namespace TateFirmware.Net

open LibGeneric Support

/-! ## Blocks of a file -/

theorem fileBlock_length (file : List UInt8) (r : ℕ) :
    (fileBlock file (r + 1)).length =
      min tftpBlockSize (file.length - tftpBlockSize * r) := by
  rw [fileBlock, Nat.add_sub_cancel, List.length_take, List.length_drop]

/-- The blocks before block `r + 1` and that one. -/
theorem take_append_fileBlock (file : List UInt8) (r : ℕ) :
    file.take (tftpBlockSize * r) ++ fileBlock file (r + 1) =
      file.take (tftpBlockSize * (r + 1)) := by
  rw [fileBlock, Nat.add_sub_cancel, Nat.mul_succ, List.take_add]

/-- Only the last block is shorter than the others. -/
theorem fileBlock_short_iff {file : List UInt8} {r : ℕ}
    (hr : r + 1 ≤ blockCount file) :
    (fileBlock file (r + 1)).length < tftpBlockSize ↔
      r + 1 = blockCount file := by
  rw [fileBlock_length]
  unfold blockCount tftpBlockSize at *
  omega

theorem take_blockCount (file : List UInt8) :
    file.take (tftpBlockSize * blockCount file) = file := by
  apply List.take_of_length_le
  unfold blockCount tftpBlockSize
  omega

namespace Tftp

/-! ## What the client has loaded -/

/-- The first `r` blocks of a file are loaded, and success is reported only
when these are all. -/
structure Loaded (file : List UInt8) (r : ℕ) (st : Tftp) : Prop where
  bound : r ≤ blockCount file
  mem : Memory.Holds st.mem.wrap st.loadAddr (file.take (tftpBlockSize * r))
  size : st.netBootFileXferSize = (file.take (tftpBlockSize * r)).length
  success : st.netState = .netloopSuccess → r = blockCount file

/-- The counters behind block `r`, where 0 stands for an acknowledgement of
the options. -/
structure At (P r : ℕ) (st : Tftp) : Prop where
  block : st.tftpBlock = r % 2 ^ 16
  port : st.tftpServerPort = P
  state : r = 0 ∧ st.tftpState = .oack ∨
    0 < r ∧ st.tftpState = .data ∧ st.tftpLastBlock = r % 2 ^ 16 ∧
      st.tftpBlockWrapOffset = r / 2 ^ 16 * 2 ^ 25 % 2 ^ 32

/-- The client is ready for block `r + 1`. -/
def Ready (r : ℕ) (st : Tftp) : Prop :=
  r = 0 ∧ (st.tftpState = .rrq ∨ st.tftpState = .oack) ∨
    0 < r ∧ st.tftpState = .data ∧ st.tftpLastBlock = r % 2 ^ 16 ∧
      st.tftpBlockWrapOffset = r / 2 ^ 16 * 2 ^ 25 % 2 ^ 32

theorem At.ready {P r : ℕ} {st : Tftp} (h : At P r st) : Ready r st := by
  rcases h.state with ⟨hr, hstate⟩ | hdata
  · exact Or.inl ⟨hr, Or.inr hstate⟩
  · exact Or.inr hdata

theorem length_take_blocks {file : List UInt8} {r : ℕ}
    (hr : r + 1 ≤ blockCount file) :
    (file.take (tftpBlockSize * r)).length = tftpBlockSize * r := by
  rw [List.length_take]
  unfold blockCount tftpBlockSize at *
  omega

/-- `store_block` puts block `r + 1` behind the blocks before it. -/
theorem storeBlock_loaded {file : List UInt8} {r block : ℕ} {st : Tftp}
    (hlen : file.length < 2 ^ 32) (hr : r + 1 ≤ blockCount file)
    (hloaded : Loaded file r st)
    (hoffset : (block * tftpBlockSize + st.tftpBlockWrapOffset) % 2 ^ 32 =
      tftpBlockSize * r) :
    Memory.Holds (st.storeBlock block (fileBlock file (r + 1))).mem.wrap
        st.loadAddr (file.take (tftpBlockSize * (r + 1))) ∧
      (st.storeBlock block (fileBlock file (r + 1))).netBootFileXferSize =
        (file.take (tftpBlockSize * (r + 1))).length := by
  have hfront := length_take_blocks hr
  have hwhole : (file.take (tftpBlockSize * r)).length +
      (fileBlock file (r + 1)).length =
        (file.take (tftpBlockSize * (r + 1))).length := by
    rw [← take_append_fileBlock, List.length_append]
  have hfits : (file.take (tftpBlockSize * (r + 1))).length ≤ file.length :=
    List.length_take_le' _ _
  unfold storeBlock
  dsimp only
  rw [hoffset]
  constructor
  · have hmem := hloaded.mem.append_copyWrap
      (show (file.take (tftpBlockSize * r)).length +
        (fileBlock file (r + 1)).length ≤ 2 ^ 32 by omega)
    rw [hfront, take_append_fileBlock] at hmem
    exact hmem
  · rw [hfront] at hwhole
    rw [hloaded.size, hwhole, Nat.mod_eq_of_lt (by omega), hfront]
    split <;> omega

/-- What `tftpNewBlock` does with a block that is not the last one again. -/
theorem tftpNewBlock_loaded {file : List UInt8} {P r : ℕ} {st : Tftp}
    (hlen : file.length < 2 ^ 32) (hr : r + 1 ≤ blockCount file)
    (hloaded : Loaded file r st) (hstate : st.tftpState = .data)
    (hport : st.tftpServerPort = P)
    (hblock : st.tftpBlock = (r + 1) % 2 ^ 16)
    (hlast : st.tftpLastBlock ≠ (r + 1) % 2 ^ 16)
    (hwrap : st.tftpBlockWrapOffset = (r + 1) / 2 ^ 16 * 2 ^ 25 % 2 ^ 32) :
    At P (r + 1) (st.tftpNewBlock (fileBlock file (r + 1))).1 ∧
      Loaded file (r + 1) (st.tftpNewBlock (fileBlock file (r + 1))).1 ∧
      (st.tftpNewBlock (fileBlock file (r + 1))).1.tftpOurPort =
        st.tftpOurPort ∧
      (st.tftpNewBlock (fileBlock file (r + 1))).1.startAgainHandler =
        st.startAgainHandler ∧
      (st.tftpNewBlock (fileBlock file (r + 1))).2 =
        [⟨st.tftpOurPort, P, ackPacket (r + 1)⟩] := by
  have hbound : tftpBlockSize * r < 2 ^ 32 := by
    unfold blockCount tftpBlockSize at *
    omega
  have hoffset : ((st.tftpBlock + 2 ^ 32 - 1) % 2 ^ 32 * tftpBlockSize +
      st.tftpBlockWrapOffset) % 2 ^ 32 = tftpBlockSize * r := by
    rw [hblock, hwrap]
    unfold tftpBlockSize at *
    omega
  have hcompared : Loaded file r { st with tftpLastBlock := st.tftpBlock } :=
    ⟨hloaded.bound, hloaded.mem, hloaded.size, hloaded.success⟩
  obtain ⟨hmem, hsize⟩ := storeBlock_loaded hlen hr hcompared hoffset
  have hsent : Tftp.tftpSend (storeBlock ((st.tftpBlock + 2 ^ 32 - 1) % 2 ^ 32)
      (fileBlock file (r + 1)) { st with tftpLastBlock := st.tftpBlock }) =
        ⟨st.tftpOurPort, P, ackPacket (r + 1)⟩ := by
    simp only [tftpSend, tftpPayload, storeBlock, hstate, hport, hblock,
      ackPacket]
  have hstate' : 0 < r + 1 ∧ st.tftpState = .data ∧
      st.tftpBlock = (r + 1) % 2 ^ 16 ∧
      st.tftpBlockWrapOffset = (r + 1) / 2 ^ 16 * 2 ^ 25 % 2 ^ 32 :=
    ⟨Nat.succ_pos r, hstate, hblock, hwrap⟩
  unfold tftpNewBlock
  rw [if_neg (by rw [hblock]; exact hlast.symm)]
  dsimp only
  rw [hsent]
  by_cases hshort : (fileBlock file (r + 1)).length < tftpBlockSize
  · rw [if_pos hshort]
    refine ⟨⟨hblock, hport, Or.inr hstate'⟩, ⟨hr, hmem, hsize, ?_⟩, rfl, rfl,
      rfl⟩
    intro _
    exact (fileBlock_short_iff hr).1 hshort
  · rw [if_neg hshort]
    refine ⟨⟨hblock, hport, Or.inr hstate'⟩, ⟨hr, hmem, hsize, ?_⟩, rfl, rfl,
      rfl⟩
    intro hsuccess
    have hend := hloaded.success hsuccess
    omega

theorem tftpCount_same (block : ℕ) (st : Tftp) :
    (st.tftpCount block).tftpState = st.tftpState ∧
      (st.tftpCount block).tftpServerPort = st.tftpServerPort ∧
      (st.tftpCount block).tftpLastBlock = st.tftpLastBlock ∧
      (st.tftpCount block).tftpOurPort = st.tftpOurPort ∧
      (st.tftpCount block).startAgainHandler = st.startAgainHandler ∧
      (st.tftpCount block).tftpBlock = block := by
  unfold tftpCount
  split <;> exact ⟨rfl, rfl, rfl, rfl, rfl, rfl⟩

theorem Loaded.tftpCount {file : List UInt8} {r : ℕ} {st : Tftp}
    (h : Loaded file r st) (block : ℕ) : Loaded file r (st.tftpCount block) := by
  unfold Tftp.tftpCount
  split <;> exact ⟨h.bound, h.mem, h.size, h.success⟩

/-- The next block is stored and acknowledged. -/
theorem tftpDataBlock_next {file : List UInt8} {P r : ℕ} {st : Tftp}
    (retry : Retry) (hlen : file.length < 2 ^ 32)
    (hr : r + 1 ≤ blockCount file) (hloaded : Loaded file r st)
    (hready : Ready r st) (hport : 0 < r → st.tftpServerPort = P) :
    ∃ st', st.tftpDataBlock retry ((r + 1) % 2 ^ 16) (fileBlock file (r + 1)) P =
        (st', [⟨st.tftpOurPort, P, ackPacket (r + 1)⟩]) ∧
      At P (r + 1) st' ∧ Loaded file (r + 1) st' ∧
      st'.tftpOurPort = st.tftpOurPort ∧
      st'.startAgainHandler = st.startAgainHandler := by
  obtain ⟨hstate, hsame, hlast, hour, hagain, hblock⟩ :=
    tftpCount_same ((r + 1) % 2 ^ 16) st
  have hcounted := hloaded.tftpCount ((r + 1) % 2 ^ 16)
  rcases hready with ⟨rfl, hfirst⟩ | ⟨hpos, hdata, hlastBlock, hwrap⟩
  · have hfresh : Loaded file 0
        { st.tftpCount ((0 + 1) % 2 ^ 16) with
          tftpState := .data
          tftpServerPort := P
          tftpLastBlock := 0
          tftpBlockWrap := 0
          tftpBlockWrapOffset := 0 } :=
      ⟨hcounted.bound, hcounted.mem, hcounted.size, hcounted.success⟩
    obtain ⟨hat, hnew, hkept, hkept', hsent⟩ := tftpNewBlock_loaded hlen hr hfresh rfl
      rfl hblock (show 0 ≠ (0 + 1) % 2 ^ 16 by decide)
      (show 0 = (0 + 1) / 2 ^ 16 * 2 ^ 25 % 2 ^ 32 by decide)
    refine ⟨_, ?_, hat, hnew, hkept.trans hour, hkept'.trans hagain⟩
    unfold tftpDataBlock
    dsimp only
    rw [hstate, if_pos hfirst, if_neg (by decide)]
    refine Prod.ext rfl (hsent.trans ?_)
    rw [hour]
  · have hwrapped : (st.tftpCount ((r + 1) % 2 ^ 16)).tftpBlockWrapOffset =
        (r + 1) / 2 ^ 16 * 2 ^ 25 % 2 ^ 32 := by
      unfold Tftp.tftpCount
      by_cases hzero : (r + 1) % 2 ^ 16 = 0
      · rw [if_pos hzero]
        simp only [hwrap, tftpBlockSize, tftpSequenceSize]
        omega
      · rw [if_neg hzero]
        simp only [hwrap]
        omega
    obtain ⟨hat, hnew, hkept, hkept', hsent⟩ := tftpNewBlock_loaded hlen hr hcounted
      (hstate.trans hdata) (hsame.trans (hport hpos)) hblock
      (by rw [hlast, hlastBlock]; omega) hwrapped
    refine ⟨_, ?_, hat, hnew, hkept.trans hour, hkept'.trans hagain⟩
    unfold tftpDataBlock
    dsimp only
    rw [hstate, hdata, if_neg (by decide)]
    refine Prod.ext rfl (hsent.trans ?_)
    rw [hour]

/-- The last block again changes nothing, unless its number is 0. -/
theorem tftpDataBlock_again {P r : ℕ} {st : Tftp} (retry : Retry)
    (payload : List UInt8) (hat : At P r st) (hpos : 0 < r)
    (hnumber : r % 2 ^ 16 ≠ 0) :
    st.tftpDataBlock retry (r % 2 ^ 16) payload P = (st, []) := by
  rcases hat.state with ⟨rfl, -⟩ | ⟨-, hdata, hlast, -⟩
  · exact absurd hpos (Nat.lt_irrefl 0)
  · have hcount : st.tftpCount (r % 2 ^ 16) = st := by
      rw [Tftp.tftpCount, if_neg hnumber, ← hat.block]
    unfold tftpDataBlock tftpNewBlock
    dsimp only
    rw [hcount, hdata, if_neg (by decide), if_pos (hat.block.trans hlast.symm)]

/-! ## Packets of the server -/

theorem serverPacket_number (file : List UInt8) (j : ℕ) :
    ntohs (serverPacket file (j + 1)) = tftpDataOp ∧
      ntohs ((serverPacket file (j + 1)).drop 2) = (j + 1) % 2 ^ 16 ∧
      ((serverPacket file (j + 1)).drop 2).drop 2 = fileBlock file (j + 1) ∧
      ¬ (serverPacket file (j + 1)).length < 2 ∧
      ¬ ((serverPacket file (j + 1)).drop 2).length < 2 := by
  refine ⟨by rw [serverPacket, ntohs_htons]; decide, ?_, rfl, ?_, ?_⟩
  · exact ntohs_htons (j + 1) (fileBlock file (j + 1))
  · simp [serverPacket, htons]
  · simp [serverPacket, htons]

/-- A data packet from the port the client listens to. -/
theorem tftpHandler_data {st : Tftp} {src : ℕ} (retry : Retry)
    (file : List UInt8) (j : ℕ)
    (haccept : st.tftpState ≠ .rrq → src = st.tftpServerPort) :
    st.tftpHandler retry (serverPacket file (j + 1)) st.tftpOurPort src =
      st.tftpDataBlock retry ((j + 1) % 2 ^ 16) (fileBlock file (j + 1))
        src := by
  obtain ⟨hop, hnumber, hpayload, hlen, hlen'⟩ := serverPacket_number file j
  unfold tftpHandler
  rw [if_neg (by simp), if_neg (by tauto), if_neg hlen, hop,
    if_neg (by decide), if_pos rfl, if_neg hlen', hnumber, hpayload]

/-- An acknowledgement of the options from the port the client listens to. -/
theorem tftpHandler_oack {st : Tftp} {src : ℕ} (retry : Retry)
    (file : List UInt8)
    (haccept : st.tftpState ≠ .rrq → src = st.tftpServerPort) :
    st.tftpHandler retry (serverPacket file 0) st.tftpOurPort src =
      ({ st with tftpState := .oack, tftpServerPort := src },
        [⟨st.tftpOurPort, src, htons tftpAck ++ htons st.tftpBlock⟩]) := by
  have hop : ntohs (serverPacket file 0) = tftpOack := by
    rw [serverPacket, ntohs_htons]
    decide
  unfold tftpHandler
  rw [if_neg (by simp), if_neg (by tauto),
    if_neg (by simp [serverPacket, htons]), hop, if_pos rfl]
  rfl

/-- What a packet of the transfer the client takes part in does to it: nothing,
or it gets on to the packet and acknowledges it. -/
theorem At.packetHandler {file : List UInt8} {P r j : ℕ} {st : Tftp}
    (retry : Retry) (hlen : file.length < 2 ^ 32) (hat : At P r st)
    (hloaded : Loaded file r st) (hj : j = r ∨ j = r + 1)
    (hcount : j ≤ blockCount file)
    (hclean : st.startAgainHandler = false → j = r → 0 < r →
      r % 2 ^ 16 ≠ 0) :
    ∃ st' sent r', st.packetHandler retry
        ⟨P, st.tftpOurPort, serverPacket file j⟩ = (st', sent) ∧
      r ≤ r' ∧ r' ≤ j ∧ At P r' st' ∧ Loaded file r' st' ∧
      st'.tftpOurPort = st.tftpOurPort ∧
      (sent = [] ∧ r' = r ∨
        sent = [⟨st.tftpOurPort, P, ackPacket r'⟩]) := by
  have hrj : r ≤ j := by omega
  unfold Tftp.packetHandler
  by_cases hagain : st.startAgainHandler = true
  · rw [if_pos hagain]
    exact ⟨st, [], r, rfl, le_refl r, hrj, hat, hloaded, rfl, Or.inl ⟨rfl, rfl⟩⟩
  rw [if_neg hagain]
  have haccept : st.tftpState ≠ .rrq → P = st.tftpServerPort :=
    fun _ => hat.port.symm
  cases j with
  | zero =>
      have hr : r = 0 := by omega
      subst hr
      refine ⟨_, _, 0, tftpHandler_oack retry file haccept, le_refl 0, le_refl 0,
        ⟨hat.block, rfl, Or.inl ⟨rfl, rfl⟩⟩,
        ⟨hloaded.bound, hloaded.mem, hloaded.size, hloaded.success⟩, rfl,
        Or.inr ?_⟩
      rw [hat.block]
      rfl
  | succ j =>
      rcases hj with hsame | hnext
      · subst hsame
        refine ⟨st, [], j + 1, ?_, le_refl _, le_refl _, hat, hloaded, rfl,
          Or.inl ⟨rfl, rfl⟩⟩
        rw [← tftpDataBlock_again retry (fileBlock file (j + 1)) hat
          (Nat.succ_pos j)
          (hclean (by simpa using hagain) rfl (Nat.succ_pos j))]
        exact tftpHandler_data retry file j haccept
      · have hjr : j = r := by omega
        subst hjr
        obtain ⟨st', hresult, hat', hloaded', hour, -⟩ := tftpDataBlock_next retry
          hlen hcount hloaded hat.ready (fun _ => hat.port)
        exact ⟨st', _, j + 1,
          (tftpHandler_data retry file j haccept).trans hresult, Nat.le_succ j,
          le_refl _, hat', hloaded', hour, Or.inr rfl⟩

/-- What a first packet does to a client that waits for one. -/
theorem packetHandler_first {file : List UInt8} {P j : ℕ} {st : Tftp}
    (retry : Retry) (hlen : file.length < 2 ^ 32) (hstate : st.tftpState = .rrq)
    (hblock : st.tftpBlock = 0) (hloaded : Loaded file 0 st) (hj : j ≤ 1) :
    st.packetHandler retry ⟨P, st.tftpOurPort, serverPacket file j⟩ =
        (st, []) ∨
      ∃ st', st.packetHandler retry
          ⟨P, st.tftpOurPort, serverPacket file j⟩ =
            (st', [⟨st.tftpOurPort, P, ackPacket j⟩]) ∧
        At P j st' ∧ Loaded file j st' ∧
        st'.tftpOurPort = st.tftpOurPort := by
  unfold Tftp.packetHandler
  by_cases hagain : st.startAgainHandler = true
  · rw [if_pos hagain]
    exact Or.inl rfl
  rw [if_neg hagain]
  right
  have haccept : st.tftpState ≠ .rrq → P = st.tftpServerPort :=
    fun h => absurd hstate h
  cases j with
  | zero =>
      refine ⟨{ st with tftpState := .oack, tftpServerPort := P },
        (tftpHandler_oack retry file haccept).trans ?_,
        ⟨hblock, rfl, Or.inl ⟨rfl, rfl⟩⟩,
        ⟨hloaded.bound, hloaded.mem, hloaded.size, hloaded.success⟩, rfl⟩
      rw [hblock]
      rfl
  | succ j =>
      have hj0 : j = 0 := by omega
      subst hj0
      obtain ⟨st', hresult, hat, hloaded', hour, -⟩ := @tftpDataBlock_next
        file P 0 st retry hlen (Nat.succ_le_succ (Nat.zero_le _)) hloaded
        (Or.inl ⟨rfl, Or.inl hstate⟩) (fun h => absurd h (Nat.lt_irrefl 0))
      exact ⟨st', (tftpHandler_data retry file 0 haccept).trans hresult, hat,
        hloaded', hour⟩

theorem packetHandler_ignored {st : Tftp} {d : Datagram} (retry : Retry)
    (h : d.dst ≠ st.tftpOurPort ∨
      st.tftpState ≠ .rrq ∧ d.src ≠ st.tftpServerPort) :
    st.packetHandler retry d = (st, []) := by
  unfold packetHandler tftpHandler
  split
  · rfl
  · rcases h with h | h
    · rw [if_pos h]
    · rw [if_pos h]
      split <;> rfl

/-! ## Timeouts -/

/-- Nothing that concerns the transfer differs. -/
structure Same (st st' : Tftp) : Prop where
  mem : st'.mem = st.mem
  loadAddr : st'.loadAddr = st.loadAddr
  size : st'.netBootFileXferSize = st.netBootFileXferSize
  ourPort : st'.tftpOurPort = st.tftpOurPort
  port : st'.tftpServerPort = st.tftpServerPort
  block : st'.tftpBlock = st.tftpBlock
  lastBlock : st'.tftpLastBlock = st.tftpLastBlock
  wrap : st'.tftpBlockWrapOffset = st.tftpBlockWrapOffset
  state : st'.tftpState = st.tftpState
  success : st'.netState = .netloopSuccess → st.netState = .netloopSuccess

theorem Loaded.of_same {file : List UInt8} {r : ℕ} {st st' : Tftp}
    (h : Loaded file r st) (hsame : Same st st') : Loaded file r st' := by
  refine ⟨h.bound, ?_, hsame.size.trans h.size,
    fun hs => h.success (hsame.success hs)⟩
  rw [hsame.mem, hsame.loadAddr]
  exact h.mem

theorem At.of_same {P r : ℕ} {st st' : Tftp} (h : At P r st)
    (hsame : Same st st') : At P r st' := by
  refine ⟨hsame.block.trans h.block, hsame.port.trans h.port, ?_⟩
  rw [hsame.state, hsame.lastBlock, hsame.wrap]
  exact h.state

theorem startAgain_same (retry : Retry) (st : Tftp) :
    Same st (st.startAgain retry) := by
  have hnever : netStartAgain retry ≠ .state .netloopSuccess := by
    unfold netStartAgain
    split
    · decide
    · split
      · split <;> decide
      · decide
  unfold startAgain
  split
  · rename_i s hs
    refine ⟨rfl, rfl, rfl, rfl, rfl, rfl, rfl, rfl, rfl, ?_⟩
    intro hsuccess
    have hs' : s = .netloopSuccess := hsuccess
    exact absurd (hs' ▸ hs) hnever
  · exact ⟨rfl, rfl, rfl, rfl, rfl, rfl, rfl, rfl, rfl, id⟩

/-- A timeout repeats the last packet or starts again. -/
theorem timeHandler_cases (retry : Retry) (st : Tftp) :
    Same st (st.timeHandler retry).1 ∧
      ((st.timeHandler retry).2 = [] ∨
        (st.timeHandler retry).2 = [st.tftpSend]) := by
  unfold timeHandler
  split
  · refine ⟨⟨rfl, rfl, rfl, rfl, rfl, rfl, rfl, rfl, rfl, ?_⟩, Or.inl rfl⟩
    intro h
    cases h
  · unfold tftpTimeout
    dsimp only
    split
    · obtain ⟨hmem, hload, hsize, hour, hport, hblock, hlast, hwrap, hstate,
        hsuccess⟩ := startAgain_same retry
          { st with tftpTimeoutCount := st.tftpTimeoutCount + 1 }
      exact ⟨⟨hmem, hload, hsize, hour, hport, hblock, hlast, hwrap, hstate,
        hsuccess⟩, Or.inl rfl⟩
    · exact ⟨⟨rfl, rfl, rfl, rfl, rfl, rfl, rfl, rfl, rfl, id⟩, Or.inr rfl⟩

/-- What a client repeats. -/
theorem At.tftpSend {P r : ℕ} {st : Tftp} (h : At P r st) :
    st.tftpSend = ⟨st.tftpOurPort, P, ackPacket r⟩ := by
  unfold Tftp.tftpSend tftpPayload
  rcases h.state with ⟨-, hstate⟩ | ⟨-, hstate, -⟩
  · rw [hstate, h.port]
    simp only [h.block, ackPacket]
  · rw [hstate, h.port]
    simp only [h.block, ackPacket]

end Tftp

end TateFirmware.Net
