import TateFirmware.Net.TftpRun

/-!
# A block number that wraps twice

A file of 65537 blocks over a network that duplicates a single packet, the one
with block 65536: the handler counts two wraps of the block number, stores the
last block 32 MB behind its place and reports success.
-/

namespace TateFirmware.Net

open LibGeneric Support

namespace Network

/-! ## Packets that arrive one by one -/

/-- The server has sent block `r + 1`, and `k` copies of it are in flight. -/
structure Sending (file : List UInt8) (P r k : ℕ) (w : Network) : Prop where
  ready : w.client.Ready r
  port : w.client.tftpState ≠ .rrq → P = w.client.tftpServerPort
  loaded : w.client.Loaded file r
  handler : w.client.startAgainHandler = false
  session : w.server P = some ⟨w.client.tftpOurPort, r + 1⟩
  toServer : w.toServer = []
  toClient : w.toClient = List.replicate k
    ⟨P, w.client.tftpOurPort, serverPacket file (r + 1)⟩

/-- The client has acknowledged block `r`, and `k` copies of it are in
flight. -/
structure Acked (file : List UInt8) (P r k : ℕ) (w : Network) : Prop where
  client : w.client.At P r
  loaded : w.client.Loaded file r
  handler : w.client.startAgainHandler = false
  session : w.server P = some ⟨w.client.tftpOurPort, r⟩
  toServer : w.toServer = [⟨w.client.tftpOurPort, P, ackPacket r⟩]
  toClient : w.toClient = List.replicate k
    ⟨P, w.client.tftpOurPort, serverPacket file r⟩

theorem acknowledges_self (r : ℕ) : acknowledges (ackPacket r) r = true := by
  unfold acknowledges
  rw [ackPacket_number]
  simp only [Bool.and_eq_true, decide_eq_true_eq, and_true]
  rw [ackPacket, ntohs_htons]
  decide

/-- An acknowledgement that arrives at the server. -/
theorem serve_ack {file : List UInt8} {w : Network} {P peer r : ℕ}
    (port : ℕ) (oack : Bool) (hP : P ≠ wellKnownPort)
    (hr : r + 1 ≤ blockCount file) (hs : w.server P = some ⟨peer, r⟩) :
    w.serve file ⟨peer, P, ackPacket r⟩ port oack =
      { w with
        server := Function.update w.server P (some ⟨peer, r + 1⟩)
        toClient := w.toClient ++ [⟨P, peer, serverPacket file (r + 1)⟩] } := by
  unfold serve
  dsimp only
  rw [if_neg hP, hs]
  dsimp only
  rw [if_pos ⟨rfl, by omega, acknowledges_self r⟩, withSession, Session.sends,
    if_pos hr]

theorem Acked.serverReceives {file : List UInt8} {w : Network} {P r : ℕ}
    (port : ℕ) (oack : Bool) (hP : P ≠ wellKnownPort)
    (hr : r + 1 ≤ blockCount file) (h : Acked file P r 0 w) :
    Sending file P r 1 (w.next file (.serverReceives port oack)) := by
  have hnext : w.next file (.serverReceives port oack) =
      { w with
        toServer := []
        server := Function.update w.server P
          (some ⟨w.client.tftpOurPort, r + 1⟩)
        toClient := w.toClient ++
          [⟨P, w.client.tftpOurPort, serverPacket file (r + 1)⟩] } := by
    unfold Network.next
    dsimp only
    rw [h.toServer]
    exact @serve_ack file { w with toServer := [] } P _ r port oack hP hr
      h.session
  rw [hnext]
  refine ⟨h.client.ready, fun _ => h.client.port.symm, h.loaded, h.handler,
    Function.update_self _ _ _, rfl, ?_⟩
  dsimp only
  rw [h.toClient]
  rfl

theorem Sending.clientReceives {file : List UInt8} {w : Network} {P r k : ℕ}
    (retry : Retry) (hlen : file.length < 2 ^ 32)
    (hr : r + 1 ≤ blockCount file) (h : Sending file P r (k + 1) w) :
    Acked file P (r + 1) k (w.next file (.clientReceives retry)) := by
  have hport : 0 < r → w.client.tftpServerPort = P := by
    intro hpos
    refine (h.port ?_).symm
    rcases h.ready with ⟨hr0, -⟩ | ⟨-, hstate, -⟩
    · omega
    · rw [hstate]
      decide
  obtain ⟨st', hresult, hat, hloaded, hour, hagain⟩ :=
    Tftp.tftpDataBlock_next retry hlen hr h.loaded h.ready hport
  have hhandled : w.client.packetHandler retry
      ⟨P, w.client.tftpOurPort, serverPacket file (r + 1)⟩ =
        (st', [⟨w.client.tftpOurPort, P, ackPacket (r + 1)⟩]) := by
    rw [Tftp.packetHandler, if_neg (by rw [h.handler]; decide), ← hresult]
    exact Tftp.tftpHandler_data retry file r h.port
  have hnext : w.next file (.clientReceives retry) =
      { w with
        client := st'
        toClient := List.replicate k
          ⟨P, w.client.tftpOurPort, serverPacket file (r + 1)⟩
        toServer := [⟨w.client.tftpOurPort, P, ackPacket (r + 1)⟩] } := by
    unfold Network.next
    dsimp only
    rw [h.toClient, List.replicate_succ]
    dsimp only
    rw [hhandled, withClient, h.toServer]
    rfl
  rw [hnext]
  refine ⟨hat, hloaded, hagain.trans h.handler, ?_, ?_, ?_⟩
  · rw [hour]
    exact h.session
  · rw [hour]
  · rw [hour]

/-- The network duplicates the packet. -/
theorem Sending.twice {file : List UInt8} {w : Network} {P r : ℕ}
    (h : Sending file P r 1 w) :
    Sending file P r 2 (w.next file (.twiceToClient 0)) := by
  refine ⟨h.ready, h.port, h.loaded, h.handler, h.session, h.toServer, ?_⟩
  rw [next, h.toClient]
  rfl

/-! ## The whole run -/

/-- The server takes a packet and the client its answer. -/
def exchange (port : ℕ) : List Action :=
  [.serverReceives port false, .clientReceives someRetry]

theorem run_exchange (file : List UInt8) (port : ℕ) (w : Network) :
    (run (step file) w (exchange port)).1 =
      (w.next file (.serverReceives port false)).next file
        (.clientReceives someRetry) := rfl

theorem Acked.exchanges {file : List UInt8} {w : Network} {P r k : ℕ}
    (hlen : file.length < 2 ^ 32) (hP : P ≠ wellKnownPort)
    (hr : r + k ≤ blockCount file) (h : Acked file P r 0 w) :
    Acked file P (r + k) 0 (run (step file) w
      (List.replicate k (exchange P)).flatten).1 := by
  induction k generalizing w r with
  | zero => exact h
  | succ k ih =>
      rw [List.replicate_succ, List.flatten_cons, run_append]
      have hfirst : Acked file P (r + 1) 0
          (run (step file) w (exchange P)).1 := by
        rw [run_exchange]
        exact (h.serverReceives P false hP (by omega)).clientReceives someRetry
          hlen (by omega)
      have hrest := ih (by omega) hfirst
      rw [show r + (k + 1) = r + 1 + k by omega]
      exact hrest

theorem tftpPayload_rrq {st : Tftp} (h : st.tftpState = .rrq) :
    ntohs st.tftpPayload = tftpRrq := by
  unfold Tftp.tftpPayload
  rw [h]
  simp only [List.append_assoc, ntohs_htons]
  decide

/-- A client that starts, and a server that answers on port `P`. -/
theorem init_exchange {file : List UInt8} {P timer : ℕ} {client : Tftp}
    (hlen : file.length < 2 ^ 32) (hP : P ≠ wellKnownPort) :
    Acked file P 1 0
      (run (step file) (init timer client) (exchange P)).1 := by
  obtain ⟨st, hst⟩ : ∃ st, (client.netLoopRestart timer).1 = st := ⟨_, rfl⟩
  have hsent : (client.netLoopRestart timer).2 =
      [⟨st.tftpOurPort, wellKnownPort, st.tftpPayload⟩] := by
    rw [← hst]
    rfl
  have hstate : st.tftpState = .rrq := by rw [← hst]; rfl
  have hnext : (init timer client).next file (.serverReceives P false) =
      ⟨st, Function.update (fun _ => none) P (some ⟨st.tftpOurPort, 1⟩), [],
        [⟨P, st.tftpOurPort, serverPacket file 1⟩]⟩ := by
    unfold Network.next init
    dsimp only
    rw [hsent, hst]
    dsimp only [serve]
    have hcount : (⟨st.tftpOurPort, 1⟩ : Session).rank ≤ blockCount file :=
      Nat.le_add_left 1 _
    rw [if_pos rfl, if_pos ⟨tftpPayload_rrq hstate, hP, rfl⟩, withSession,
      Session.sends, if_neg (by decide), if_pos hcount]
    rfl
  have hsending : Sending file P 0 1
      ((init timer client).next file (.serverReceives P false)) := by
    have hloaded : st.Loaded file 0 := by
      rw [← hst]
      refine ⟨Nat.zero_le _, ?_, ?_, ?_⟩
      · simp
      · simp [Tftp.netLoopRestart]
      · intro hsuccess
        cases hsuccess
    have hhandler : st.startAgainHandler = false := by rw [← hst]; rfl
    rw [hnext]
    exact ⟨Or.inl ⟨rfl, Or.inl hstate⟩, fun h => absurd hstate h, hloaded,
      hhandler, by dsimp only; rw [Function.update_self], rfl, rfl⟩
  rw [run_exchange]
  exact hsending.clientReceives someRetry hlen (Nat.le_add_left 1 _)

/-! ## The second wrap -/

/-- A block whose number is 0 comes again. -/
theorem Acked.secondWrap {file : List UInt8} {w : Network} {P k : ℕ}
    (retry : Retry) (hk : (k + 1) % 2 ^ 16 = 0)
    (h : Acked file P (k + 1) 1 w) :
    w.next file (.clientReceives retry) =
      { w with client := w.client.tftpCount 0, toClient := [] } := by
  rcases h.client.state with ⟨hzero, -⟩ | ⟨-, hstate, hlast, -⟩
  · cases hzero
  obtain ⟨hstate', -, hlastBlock, -, -, hblock⟩ :=
    Tftp.tftpCount_same 0 w.client
  have hagain : w.client.tftpDataBlock retry 0
      (fileBlock file (k + 1)) P = (w.client.tftpCount 0, []) := by
    unfold Tftp.tftpDataBlock Tftp.tftpNewBlock
    dsimp only
    rw [hstate', hstate, if_neg (by decide), hblock, hlastBlock, hlast, hk,
      if_pos rfl]
  have hhandled : w.client.packetHandler retry
      ⟨P, w.client.tftpOurPort, serverPacket file (k + 1)⟩ =
        (w.client.tftpCount 0, []) := by
    rw [Tftp.packetHandler, if_neg (by rw [h.handler]; decide), ← hagain, ← hk]
    exact Tftp.tftpHandler_data retry file k fun _ => h.client.port.symm
  unfold Network.next
  dsimp only
  rw [h.toClient, List.replicate_succ, List.replicate_zero]
  dsimp only
  rw [hhandled, withClient, List.append_nil]

/-- A last block with number 1 behind two wraps. -/
theorem tftpDataBlock_misplaced {st : Tftp} {payload : List UInt8} {P : ℕ}
    (retry : Retry) (hstate : st.tftpState = .data)
    (hlast : st.tftpLastBlock = 0)
    (hwrap : st.tftpBlockWrapOffset = 2 ^ 26)
    (hsize : st.netBootFileXferSize = 2 ^ 25)
    (hshort : payload.length < tftpBlockSize) :
    (st.tftpDataBlock retry 1 payload P).1.netState = .netloopSuccess ∧
      (st.tftpDataBlock retry 1 payload P).1.netBootFileXferSize =
        2 ^ 26 + payload.length := by
  have hlen : payload.length < 512 := hshort
  have hcount : st.tftpCount 1 = { st with tftpBlock := 1 } := rfl
  unfold Tftp.tftpDataBlock Tftp.tftpNewBlock
  dsimp only
  rw [hcount]
  dsimp only
  rw [hstate, if_neg (by decide), hlast, if_neg (by decide), if_pos hshort]
  refine ⟨rfl, ?_⟩
  simp only [Tftp.storeBlock, hwrap, hsize]
  rw [show ((1 + 2 ^ 32 - 1) % 2 ^ 32 * tftpBlockSize + 2 ^ 26) % 2 ^ 32 =
    2 ^ 26 from rfl, Nat.mod_eq_of_lt (by omega), if_pos (by omega)]

/-- `n + 1` blocks arrive, one after the other, then one that comes twice, and
one more. -/
def secondWrapActions (P n : ℕ) : List Action :=
  exchange P ++ (List.replicate n (exchange P)).flatten ++
    [.serverReceives P false, .twiceToClient 0, .clientReceives someRetry,
      .clientReceives someRetry] ++ exchange P

theorem fileBlock_last_length {file : List UInt8} {r : ℕ}
    (hr : blockCount file = r + 1) :
    (fileBlock file (r + 1)).length = file.length - tftpBlockSize * r := by
  rw [fileBlock_length]
  unfold blockCount tftpBlockSize at *
  omega

/-- The block behind the one that came twice. -/
theorem Acked.misplaced {file : List UInt8} {w : Network} {P k : ℕ}
    (hfile : blockCount file = 2 ^ 16 + 1) (hP : P ≠ wellKnownPort)
    (hk : k + 1 = 2 ^ 16) (h : Acked file P (k + 1) 1 w) :
    (run (step file) (w.next file (.clientReceives someRetry))
        (exchange P)).1.client.netState = .netloopSuccess ∧
      (run (step file) (w.next file (.clientReceives someRetry))
        (exchange P)).1.client.netBootFileXferSize =
          file.length + 2 ^ 25 := by
  have hcount : file.length / 512 + 1 = 2 ^ 16 + 1 := hfile
  have hbehind : 2 ^ 26 + (file.length - 2 ^ 25) = file.length + 2 ^ 25 := by
    omega
  have hbytes : tftpBlockSize * 2 ^ 16 = 2 ^ 25 := by decide
  have hsize := h.loaded.size
  rw [Tftp.length_take_blocks (by omega), hk, hbytes] at hsize
  rcases h.client.state with ⟨hzero, -⟩ | ⟨-, hstate, hlast, hwrap⟩
  · cases hzero
  obtain ⟨hstate', hport, hlast', hour, hagain, -⟩ :=
    Tftp.tftpCount_same 0 w.client
  rw [h.secondWrap someRetry (by omega), run_exchange]
  obtain ⟨st, hst⟩ : ∃ st, w.client.tftpCount 0 = st := ⟨_, rfl⟩
  have hwrap' : st.tftpBlockWrapOffset = 2 ^ 26 := by
    rw [← hst, Tftp.tftpCount, if_pos rfl]
    dsimp only
    rw [hwrap, hk]
    rfl
  have hsize' : st.netBootFileXferSize = 2 ^ 25 := by
    rw [← hst, Tftp.tftpCount, if_pos rfl]
    exact hsize
  rw [hst] at hstate' hport hlast' hour hagain ⊢
  have hserved : Network.next file { w with client := st, toClient := [] }
      (.serverReceives P false) =
        { w with
          client := st
          toServer := []
          server := Function.update w.server P
            (some ⟨w.client.tftpOurPort, k + 1 + 1⟩)
          toClient :=
            [⟨P, w.client.tftpOurPort, serverPacket file (k + 1 + 1)⟩] } := by
    unfold Network.next
    dsimp only
    rw [h.toServer]
    exact @serve_ack file { w with client := st, toServer := [], toClient := [] }
      P _ (k + 1) P false hP (by omega) h.session
  have hpayload : (fileBlock file (k + 1 + 1)).length =
      file.length - 2 ^ 25 :=
    (fileBlock_last_length (by omega)).trans (by rw [hk, hbytes])
  have hnumber : (k + 1 + 1) % 2 ^ 16 = 1 := by omega
  obtain ⟨hsuccess, htotal⟩ := @tftpDataBlock_misplaced st
    (fileBlock file (k + 1 + 1)) P someRetry (hstate'.trans hstate)
    (hlast'.trans (by rw [hlast]; omega)) hwrap' hsize' (by
      rw [hpayload, show tftpBlockSize = 512 from rfl]
      omega)
  have hhandled : st.packetHandler someRetry
      ⟨P, w.client.tftpOurPort, serverPacket file (k + 1 + 1)⟩ =
        st.tftpDataBlock someRetry 1 (fileBlock file (k + 1 + 1)) P := by
    have hdata := @Tftp.tftpHandler_data st P someRetry file (k + 1) fun _ =>
      (hport.trans h.client.port).symm
    rw [hnumber] at hdata
    rw [Tftp.packetHandler, if_neg (by rw [hagain, h.handler]; decide), ← hour]
    exact hdata
  rw [hserved]
  unfold Network.next
  dsimp only
  rw [hhandled]
  refine ⟨hsuccess, htotal.trans ?_⟩
  rw [hpayload, hbehind]

/-- Success is reported with 32 MB too many. -/
theorem secondWrap_size {file : List UInt8} {P timer n : ℕ} {client : Tftp}
    (hfile : blockCount file = 2 ^ 16 + 1) (hP : P ≠ wellKnownPort)
    (hn : n + 2 = 2 ^ 16) :
    (run (step file) (init timer client)
        (secondWrapActions P n)).1.client.netState = .netloopSuccess ∧
      (run (step file) (init timer client)
        (secondWrapActions P n)).1.client.netBootFileXferSize =
          file.length + 2 ^ 25 := by
  have hcount : file.length / 512 + 1 = 2 ^ 16 + 1 := hfile
  have hlen : file.length < 2 ^ 32 := by omega
  have hfirst : Acked file P (1 + n) 0 (run (step file) (init timer client)
      (exchange P ++ (List.replicate n (exchange P)).flatten)).1 := by
    rw [run_append]
    exact (init_exchange hlen hP).exchanges hlen hP (by omega)
  have hsending := hfirst.serverReceives P false hP (by omega)
  have htwice : Acked file P (1 + n + 1) 1
      (run (step file) (init timer client)
        (exchange P ++ (List.replicate n (exchange P)).flatten ++
          [.serverReceives P false, .twiceToClient 0,
            .clientReceives someRetry])).1 := by
    rw [run_append]
    exact hsending.twice.clientReceives someRetry hlen (by omega)
  have hrest := htwice.misplaced hfile hP (by omega)
  have hactions : secondWrapActions P n =
      exchange P ++ (List.replicate n (exchange P)).flatten ++
        [.serverReceives P false, .twiceToClient 0,
          .clientReceives someRetry] ++
        (.clientReceives someRetry :: exchange P) := by
    rw [secondWrapActions, List.append_assoc, List.append_assoc,
      List.append_assoc]
    rfl
  rw [hactions, run_append]
  exact hrest

/-- A file of 32 MB, an exact multiple of the block size. -/
theorem not_tftp_loads_secondWrap :
    ∃ file : List UInt8, file.length = 2 ^ 25 ∧
      (run (step file) (init 0 idleClient)
        (secondWrapActions 1000 65534)).1.client.netState = .netloopSuccess ∧
      (run (step file) (init 0 idleClient)
        (secondWrapActions 1000 65534)).1.client.netBootFileXferSize ≠
          file.length := by
  have hlen : (List.replicate (2 ^ 25) (0 : UInt8)).length = 2 ^ 25 :=
    List.length_replicate
  have hfile : blockCount (List.replicate (2 ^ 25) 0) = 2 ^ 16 + 1 := by
    rw [blockCount, hlen]
    decide
  obtain ⟨hsuccess, hsize⟩ := @secondWrap_size
    (List.replicate (2 ^ 25) 0) 1000 0 65534 idleClient hfile (by decide)
    (by decide)
  refine ⟨List.replicate (2 ^ 25) 0, hlen, hsuccess, ?_⟩
  rw [hsize, hlen]
  decide

end Network

end TateFirmware.Net
