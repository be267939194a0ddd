import TateFirmware.Net.TftpBlocks

/-!
# A TFTP transfer over a bad network

Client and server of a transfer are never more than one packet apart, whatever
the network loses and duplicates.  So the client takes the blocks of the file
one after the other, and where it reports success it holds the file.  The one
thing that must not happen is that a block whose 16-bit number is 0 comes
twice, because the handler counts a wrap of the block number before it looks
for duplicates.
-/

namespace TateFirmware.Net

open LibGeneric Support

/-! ## Packets between two ports -/

/-- What is in flight from one port to another. -/
def between (src dst : ℕ) (queue : List Datagram) : List (List UInt8) :=
  queue.filterMap fun d =>
    if d.src = src ∧ d.dst = dst then some d.data else none

theorem between_append (src dst : ℕ) (xs ys : List Datagram) :
    between src dst (xs ++ ys) = between src dst xs ++ between src dst ys :=
  List.filterMap_append

theorem between_cons (src dst : ℕ) (d : Datagram) (queue : List Datagram) :
    between src dst (d :: queue) =
      if d.src = src ∧ d.dst = dst then d.data :: between src dst queue
      else between src dst queue := by
  unfold between
  rw [List.filterMap_cons]
  by_cases h : d.src = src ∧ d.dst = dst
  · simp only [if_pos h]
  · simp only [if_neg h]

theorem between_self (src dst : ℕ) (data : List UInt8) :
    between src dst [⟨src, dst, data⟩] = [data] := by
  rw [between_cons, if_pos ⟨rfl, rfl⟩]
  rfl

theorem between_eq_nil {src dst : ℕ} {queue : List Datagram}
    (h : ∀ d ∈ queue, d.src = src → d.dst ≠ dst) :
    between src dst queue = [] := by
  rw [between, List.filterMap_eq_nil_iff]
  intro d hd
  rw [if_neg]
  rintro ⟨hsrc, hdst⟩
  exact h d hd hsrc hdst

namespace Network

/-! ## The invariant -/

/-- The client takes part in the transfer on port `P` and has taken `r`
blocks. -/
structure InTransfer (file : List UInt8) (P r : ℕ) (w : Network) : Prop where
  client : w.client.At P r
  loaded : w.client.Loaded file r
  session : ∃ s, w.server P = some ⟨w.client.tftpOurPort, s⟩ ∧
    (s = r ∨ s = r + 1) ∧
    Carries (serverPacket file) r (min s (blockCount file))
      (between P w.client.tftpOurPort w.toClient) ∧
    Carries ackPacket (s - 1) r
      (between w.client.tftpOurPort P w.toServer)

/-- The client waits for the first packet of a transfer. -/
structure Waiting (file : List UInt8) (w : Network) : Prop where
  state : w.client.tftpState = .rrq
  block : w.client.tftpBlock = 0
  port : w.client.tftpServerPort = wellKnownPort
  loaded : w.client.Loaded file 0
  requests : ∀ d ∈ w.toServer, d.src = w.client.tftpOurPort →
    d.dst = wellKnownPort
  sessions : ∀ P s, w.server P = some ⟨w.client.tftpOurPort, s⟩ →
    s ≤ 1 ∧ Carries (serverPacket file) 0 s
      (between P w.client.tftpOurPort w.toClient)

/-- What holds between two events. -/
structure Inv (file : List UInt8) (w : Network) : Prop where
  wellKnown : w.server wellKnownPort = none
  live : ∀ d ∈ w.toClient, ∃ s, w.server d.src = some ⟨d.dst, s⟩
  attempt : Waiting file w ∨ ∃ P r, InTransfer file P r w

/-! ## The network loses and duplicates -/

/-- Packets to the client are lost, duplicated, or taken away by it. -/
theorem Inv.toClient {file : List UInt8} {w : Network} {queue : List Datagram}
    (h : Inv file w) (hmem : ∀ d ∈ queue, d ∈ w.toClient)
    (hcarries : ∀ packet lo hi src dst,
      Carries packet lo hi (between src dst w.toClient) →
        Carries packet lo hi (between src dst queue)) :
    Inv file { w with toClient := queue } := by
  refine ⟨h.wellKnown, fun d hd => h.live d (hmem d hd), ?_⟩
  rcases h.attempt with hwait | ⟨P, r, htransfer⟩
  · left
    refine ⟨hwait.state, hwait.block, hwait.port, hwait.loaded,
      hwait.requests, ?_⟩
    intro P s hs
    obtain ⟨hle, hc⟩ := hwait.sessions P s hs
    exact ⟨hle, hcarries _ _ _ _ _ hc⟩
  · right
    obtain ⟨s, hs, hnear, hpackets, hacks⟩ := htransfer.session
    exact ⟨P, r, htransfer.client, htransfer.loaded, s, hs, hnear,
      hcarries _ _ _ _ _ hpackets, hacks⟩

/-- Packets to the server are lost, duplicated, or taken away by it. -/
theorem Inv.toServer {file : List UInt8} {w : Network} {queue : List Datagram}
    (h : Inv file w) (hmem : ∀ d ∈ queue, d ∈ w.toServer)
    (hcarries : ∀ packet lo hi src dst,
      Carries packet lo hi (between src dst w.toServer) →
        Carries packet lo hi (between src dst queue)) :
    Inv file { w with toServer := queue } := by
  refine ⟨h.wellKnown, h.live, ?_⟩
  rcases h.attempt with hwait | ⟨P, r, htransfer⟩
  · left
    exact ⟨hwait.state, hwait.block, hwait.port, hwait.loaded,
      fun d hd => hwait.requests d (hmem d hd), hwait.sessions⟩
  · right
    obtain ⟨s, hs, hnear, hpackets, hacks⟩ := htransfer.session
    exact ⟨P, r, htransfer.client, htransfer.loaded, s, hs, hnear, hpackets,
      hcarries _ _ _ _ _ hacks⟩

theorem carries_tail {packet : ℕ → List UInt8} {lo hi src dst : ℕ}
    {d : Datagram} {queue : List Datagram}
    (h : Carries packet lo hi (between src dst (d :: queue))) :
    Carries packet lo hi (between src dst queue) :=
  h.sublist ((List.sublist_cons_self d queue).filterMap _)

theorem Inv.dropToClient {file : List UInt8} {w : Network} {d : Datagram}
    {queue : List Datagram} (h : Inv file w) (hqueue : w.toClient = d :: queue) :
    Inv file { w with toClient := queue } := by
  apply h.toClient
  · intro e he
    rw [hqueue]
    exact List.mem_cons_of_mem d he
  · intro packet lo hi src dst hc
    rw [hqueue] at hc
    exact carries_tail hc

theorem Inv.dropToServer {file : List UInt8} {w : Network} {d : Datagram}
    {queue : List Datagram} (h : Inv file w) (hqueue : w.toServer = d :: queue) :
    Inv file { w with toServer := queue } := by
  apply h.toServer
  · intro e he
    rw [hqueue]
    exact List.mem_cons_of_mem d he
  · intro packet lo hi src dst hc
    rw [hqueue] at hc
    exact carries_tail hc

/-! ## The client -/

/-- A data block whose number is 0, taken for a second wrap of the block
number. -/
def SecondWrap (st : Tftp) (d : Datagram) : Prop :=
  st.startAgainHandler = false ∧ d.dst = st.tftpOurPort ∧
    d.src = st.tftpServerPort ∧ st.tftpState = .data ∧
    st.tftpLastBlock = 0 ∧ ntohs d.data = tftpDataOp ∧
    ntohs (d.data.drop 2) = 0

instance (st : Tftp) (d : Datagram) : Decidable (SecondWrap st d) :=
  inferInstanceAs (Decidable (_ ∧ _))

/-- A packet that the client ignores. -/
theorem Inv.clientIgnores {file : List UInt8} {w : Network} {d : Datagram}
    {queue : List Datagram} (h : Inv file w) (hqueue : w.toClient = d :: queue)
    {retry : Retry} (hsame : w.client.packetHandler retry d = (w.client, [])) :
    Inv file ({ w with toClient := queue }.withClient
      (w.client.packetHandler retry d)) := by
  rw [hsame, withClient, List.append_nil]
  exact h.dropToClient hqueue

/-- The first packet of a transfer. -/
theorem Inv.firstReceived {file : List UInt8} {w : Network} {d : Datagram}
    {queue : List Datagram} (retry : Retry) (hlen : file.length < 2 ^ 32)
    (h : Inv file w) (hqueue : w.toClient = d :: queue)
    (hdst : d.dst = w.client.tftpOurPort) (hwait : Waiting file w) :
    Inv file ({ w with toClient := queue }.withClient
      (w.client.packetHandler retry d)) := by
  obtain ⟨s, hs⟩ := h.live d (by rw [hqueue]; exact List.mem_cons_self)
  rw [hdst] at hs
  obtain ⟨hle, hc⟩ := hwait.sessions d.src s hs
  rw [hqueue, between_cons, if_pos ⟨rfl, hdst⟩] at hc
  obtain ⟨j, -, hj, hdata, hrest⟩ := hc.of_cons
  have hd : d = ⟨d.src, w.client.tftpOurPort, serverPacket file j⟩ := by
    rw [← hdst, ← hdata]
  rcases @Tftp.packetHandler_first file d.src j w.client retry hlen
      hwait.state hwait.block hwait.loaded (hj.trans hle) with
    hignored | ⟨st', hresult, hat, hloaded, hour⟩
  · rw [← hd] at hignored
    exact h.clientIgnores hqueue hignored
  · rw [← hd] at hresult
    rw [hresult]
    refine ⟨h.wellKnown, (h.dropToClient hqueue).live,
      Or.inr ⟨d.src, j, hat, hloaded, ?_⟩⟩
    have hcount : min s (blockCount file) = s :=
      Nat.min_eq_left (hle.trans (Nat.le_add_left 1 _))
    have hnone : between w.client.tftpOurPort d.src w.toServer = [] := by
      apply between_eq_nil
      intro e he hsrc hsame
      have hknown := hwait.requests e he hsrc
      rw [hsame] at hknown
      rw [hknown, h.wellKnown] at hs
      cases hs
    refine ⟨s, ?_, by omega, ?_, ?_⟩
    · exact hs.trans (by rw [withClient, hour])
    · rw [hcount]
      rw [withClient, hour]
      exact hrest
    · rw [withClient, hour, between_append, hnone, between_self]
      exact (Carries.nil ackPacket (s - 1) j).snoc (by omega)

/-- A packet of the transfer that the client takes part in. -/
theorem Inv.nextReceived {file : List UInt8} {w : Network} {d : Datagram}
    {queue : List Datagram} (retry : Retry) (hlen : file.length < 2 ^ 32)
    (h : Inv file w) (hqueue : w.toClient = d :: queue)
    (hdst : d.dst = w.client.tftpOurPort) {P r : ℕ}
    (htransfer : InTransfer file P r w) (hclean : ¬ SecondWrap w.client d) :
    Inv file ({ w with toClient := queue }.withClient
      (w.client.packetHandler retry d)) := by
  obtain ⟨s, hs, hnear, hpackets, hacks⟩ := htransfer.session
  by_cases hsrc : d.src = P
  swap
  · refine h.clientIgnores hqueue (Tftp.packetHandler_ignored retry (Or.inr ⟨?_, ?_⟩))
    · rcases htransfer.client.state with ⟨-, hstate⟩ | ⟨-, hstate, -⟩
      · rw [hstate]
        decide
      · rw [hstate]
        decide
    · rw [htransfer.client.port]
      exact hsrc
  rw [hqueue, between_cons, if_pos ⟨hsrc, hdst⟩] at hpackets
  obtain ⟨j, hrj, hjs, hdata, hrest⟩ := hpackets.of_cons
  have hd : d = ⟨P, w.client.tftpOurPort, serverPacket file j⟩ := by
    rw [← hsrc, ← hdst, ← hdata]
  have hfirst : w.client.startAgainHandler = false → j = r → 0 < r →
      r % 2 ^ 16 ≠ 0 := by
    intro hhandler hjr hpos hzero
    rcases htransfer.client.state with ⟨hr, -⟩ | ⟨-, hstate, hlast, -⟩
    · omega
    · obtain ⟨k, rfl⟩ := Nat.exists_eq_add_of_lt hpos
      obtain ⟨hop, hnumber, -⟩ := Tftp.serverPacket_number file (0 + k)
      refine hclean ⟨hhandler, hdst, ?_, hstate, hlast.trans hzero, ?_, ?_⟩
      · rw [htransfer.client.port]
        exact hsrc
      · rw [hdata, hjr]
        exact hop
      · rw [hdata, hjr]
        exact hnumber.trans hzero
  obtain ⟨st', sent, r', hresult, hge, hle, hat, hloaded, hour, hsent⟩ :=
    htransfer.client.packetHandler retry hlen htransfer.loaded
      (show j = r ∨ j = r + 1 by omega) (by omega) hfirst
  rw [← hd] at hresult
  rw [hresult]
  refine ⟨h.wellKnown, (h.dropToClient hqueue).live,
    Or.inr ⟨P, r', hat, hloaded, s, ?_, by omega, ?_, ?_⟩⟩
  · rw [withClient, hour]
    exact hs
  · rw [withClient, hour]
    exact hrest.mono hle (le_refl _)
  · rw [withClient, hour, between_append]
    rcases hsent with ⟨rfl, rfl⟩ | rfl
    · rw [show between w.client.tftpOurPort P [] = [] from rfl,
        List.append_nil]
      exact hacks
    · rw [between_self]
      exact (hacks.mono (le_refl _) hge).snoc (by omega)

/-- The packet in front of the client's queue is handled. -/
theorem Inv.clientReceives {file : List UInt8} {w : Network} {d : Datagram}
    {queue : List Datagram} (retry : Retry) (hlen : file.length < 2 ^ 32)
    (h : Inv file w) (hqueue : w.toClient = d :: queue)
    (hclean : ¬ SecondWrap w.client d) :
    Inv file ({ w with toClient := queue }.withClient
      (w.client.packetHandler retry d)) := by
  by_cases hdst : d.dst = w.client.tftpOurPort
  · rcases h.attempt with hwait | ⟨P, r, htransfer⟩
    · exact h.firstReceived retry hlen hqueue hdst hwait
    · exact h.nextReceived retry hlen hqueue hdst htransfer hclean
  · exact h.clientIgnores hqueue (Tftp.packetHandler_ignored retry (Or.inl hdst))

/-- A timeout of the client. -/
theorem Inv.clientTimeout {file : List UInt8} {w : Network} (retry : Retry)
    (h : Inv file w) :
    Inv file (w.withClient (w.client.timeHandler retry)) := by
  obtain ⟨hsame, hsent⟩ := w.client.timeHandler_cases retry
  refine ⟨h.wellKnown, h.live, ?_⟩
  rcases h.attempt with hwait | ⟨P, r, htransfer⟩
  · left
    refine ⟨hsame.state.trans hwait.state, hsame.block.trans hwait.block,
      hsame.port.trans hwait.port, hwait.loaded.of_same hsame, ?_, ?_⟩
    · intro d hd hsrc
      rw [withClient, hsame.ourPort] at hsrc
      rcases List.mem_append.1 hd with hd | hd
      · exact hwait.requests d hd hsrc
      · rcases hsent with hsent | hsent
        · rw [hsent] at hd
          cases hd
        · rw [hsent, List.mem_singleton] at hd
          rw [hd, ← hwait.port]
          rfl
    · intro P s hs
      rw [withClient, hsame.ourPort] at hs ⊢
      exact hwait.sessions P s hs
  · right
    obtain ⟨s, hs, hnear, hpackets, hacks⟩ := htransfer.session
    refine ⟨P, r, htransfer.client.of_same hsame,
      htransfer.loaded.of_same hsame, s, ?_, hnear, ?_, ?_⟩
    · rw [withClient, hsame.ourPort]
      exact hs
    · rw [withClient, hsame.ourPort]
      exact hpackets
    · rw [withClient, hsame.ourPort, between_append]
      rcases hsent with hsent | hsent
      · rw [hsent, show between w.client.tftpOurPort P [] = [] from rfl,
          List.append_nil]
        exact hacks
      · rw [hsent, htransfer.client.tftpSend, between_self]
        exact hacks.snoc (by omega)

/-- No packet and no transfer is left of an attempt on this port. -/
def Fresh (w : Network) (port : ℕ) : Prop :=
  (∀ d ∈ w.toServer, d.src ≠ port) ∧
    ∀ P s, w.server P = some s → s.peer ≠ port

/-- `NetLoop` starts the client, on a port that is fresh. -/
theorem Inv.start {file : List UInt8} {w : Network} (timer : ℕ)
    (hwellKnown : w.server wellKnownPort = none)
    (hlive : ∀ d ∈ w.toClient, ∃ s, w.server d.src = some ⟨d.dst, s⟩)
    (hfresh : Fresh w (1024 + timer % 3072)) :
    Inv file (w.withClient (w.client.netLoopRestart timer)) := by
  refine ⟨hwellKnown, hlive, Or.inl ⟨rfl, rfl, rfl, ?_, ?_, ?_⟩⟩
  · refine ⟨Nat.zero_le _, ?_, ?_, ?_⟩
    · simp
    · simp [withClient, Tftp.netLoopRestart]
    · intro hsuccess
      cases hsuccess
  · intro d hd hsrc
    rcases List.mem_append.1 hd with hd | hd
    · exact absurd hsrc (hfresh.1 d hd)
    · rw [List.mem_singleton.1 hd]
      rfl
  · intro P s hs
    exact absurd rfl (hfresh.2 P _ hs)

/-! ## The server -/

theorem between_sends (file : List UInt8) (port P peer : ℕ) (s : Session) :
    between P peer (s.sends file port) =
      if port = P ∧ s.peer = peer ∧ s.rank ≤ blockCount file then
        [serverPacket file s.rank]
      else [] := by
  unfold Session.sends
  by_cases hcount : s.rank ≤ blockCount file
  · rw [if_pos hcount, between_cons]
    by_cases hport : port = P ∧ s.peer = peer
    · rw [if_pos hport, if_pos ⟨hport.1, hport.2, hcount⟩]
      rfl
    · rw [if_neg hport, if_neg (fun h => hport ⟨h.1, h.2.1⟩)]
      rfl
  · rw [if_neg hcount, if_neg (fun h => hcount h.2.2)]
    rfl

/-- A transfer that is not the client's changes. -/
theorem between_withSession {file : List UInt8} {w : Network}
    {port P peer : ℕ} {s : Session} (hne : port = P → s.peer ≠ peer) :
    between P peer (w.withSession file port s).toClient =
      between P peer w.toClient := by
  rw [withSession, between_append, between_sends,
    if_neg (fun h => hne h.1 h.2.1), List.append_nil]

/-- A transfer that the server starts or goes on with. -/
theorem live_withSession {file : List UInt8} {w : Network} {port : ℕ}
    {s : Session}
    (hlive : ∀ d ∈ w.toClient, ∃ s, w.server d.src = some ⟨d.dst, s⟩)
    (hold : ∀ old, w.server port = some old → old.peer = s.peer) :
    ∀ d ∈ (w.withSession file port s).toClient,
      ∃ s', (w.withSession file port s).server d.src = some ⟨d.dst, s'⟩ := by
  intro d hd
  unfold withSession at hd ⊢
  dsimp only at hd ⊢
  rcases List.mem_append.1 hd with hd | hd
  · obtain ⟨old, hs⟩ := hlive d hd
    by_cases hsrc : d.src = port
    · rw [hsrc] at hs ⊢
      have hpeer : d.dst = s.peer := hold _ hs
      exact ⟨s.rank, by rw [Function.update_self, hpeer]⟩
    · exact ⟨old, by rw [Function.update_of_ne hsrc]; exact hs⟩
  · unfold Session.sends at hd
    split at hd
    · rw [List.mem_singleton] at hd
      rw [hd]
      exact ⟨s.rank, by rw [Function.update_self]⟩
    · cases hd

theorem Waiting.withSession {file : List UInt8} {w : Network} {port : ℕ}
    {s : Session} (h : Waiting file w)
    (hown : s.peer = w.client.tftpOurPort → s.rank ≤ 1 ∧
      Carries (serverPacket file) 0 s.rank
        (between port w.client.tftpOurPort w.toClient)) :
    Waiting file (w.withSession file port s) := by
  refine ⟨h.state, h.block, h.port, h.loaded, h.requests, ?_⟩
  intro P rank hs
  change Function.update w.server port (some s) P =
    some ⟨w.client.tftpOurPort, rank⟩ at hs
  change rank ≤ 1 ∧ Carries (serverPacket file) 0 rank
    (between P w.client.tftpOurPort (w.withSession file port s).toClient)
  by_cases hport : P = port
  · subst hport
    rw [Function.update_self, Option.some.injEq] at hs
    subst hs
    obtain ⟨hle, hc⟩ := hown rfl
    have hle' : rank ≤ 1 := hle
    refine ⟨hle, ?_⟩
    rw [Network.withSession, between_append, between_sends,
      if_pos ⟨rfl, rfl, hle'.trans (Nat.le_add_left 1 _)⟩]
    exact hc.snoc (Nat.zero_le _)
  · rw [Function.update_of_ne hport] at hs
    rw [between_withSession fun heq => absurd heq.symm hport]
    exact h.sessions P rank hs

theorem InTransfer.withSession {file : List UInt8} {w : Network}
    {P r port : ℕ} {s : Session} (h : InTransfer file P r w)
    (hown : port = P → s.peer = w.client.tftpOurPort ∧
      (s.rank = r ∨ s.rank = r + 1) ∧
      Carries (serverPacket file) r (min s.rank (blockCount file))
        (between P w.client.tftpOurPort w.toClient) ∧
      Carries ackPacket (s.rank - 1) r
        (between w.client.tftpOurPort P w.toServer)) :
    InTransfer file P r (w.withSession file port s) := by
  refine ⟨h.client, h.loaded, ?_⟩
  change ∃ rank, Function.update w.server port (some s) P =
      some ⟨w.client.tftpOurPort, rank⟩ ∧ (rank = r ∨ rank = r + 1) ∧
    Carries (serverPacket file) r (min rank (blockCount file))
      (between P w.client.tftpOurPort (w.withSession file port s).toClient) ∧
    Carries ackPacket (rank - 1) r
      (between w.client.tftpOurPort P w.toServer)
  by_cases hport : port = P
  · subst hport
    obtain ⟨hpeer, hnear, hpackets, hacks⟩ := hown rfl
    refine ⟨s.rank, ?_, hnear, ?_, hacks⟩
    · rw [Function.update_self, ← hpeer]
    · rw [Network.withSession, between_append, between_sends]
      by_cases hcount : s.rank ≤ blockCount file
      · rw [if_pos ⟨rfl, hpeer, hcount⟩]
        rw [Nat.min_eq_left hcount] at hpackets ⊢
        exact hpackets.snoc (by omega)
      · rw [if_neg (fun hsends => hcount hsends.2.2), List.append_nil]
        exact hpackets
  · obtain ⟨rank, hs, hnear, hpackets, hacks⟩ := h.session
    refine ⟨rank, ?_, hnear, ?_, hacks⟩
    · rw [Function.update_of_ne (Ne.symm hport)]
      exact hs
    · rw [between_withSession fun heq => absurd heq hport]
      exact hpackets

theorem Inv.withSession {file : List UInt8} {w : Network} {port : ℕ}
    {s : Session} (h : Inv file w) (hport : port ≠ wellKnownPort)
    (hold : ∀ old, w.server port = some old → old.peer = s.peer)
    (hattempt : Waiting file (w.withSession file port s) ∨
      ∃ P r, InTransfer file P r (w.withSession file port s)) :
    Inv file (w.withSession file port s) := by
  refine ⟨?_, live_withSession h.live hold, hattempt⟩
  rw [Network.withSession]
  dsimp only
  rw [Function.update_of_ne hport.symm]
  exact h.wellKnown

/-- A transfer of the server repeats its packet. -/
theorem Inv.serverTimeout {file : List UInt8} {w : Network} {port : ℕ}
    {s : Session} (h : Inv file w) (hs : w.server port = some s) :
    Inv file (w.withSession file port s) := by
  have hport : port ≠ wellKnownPort := by
    rintro rfl
    rw [h.wellKnown] at hs
    cases hs
  apply h.withSession hport
  · intro old hold
    rw [hs, Option.some.injEq] at hold
    rw [hold]
  · rcases h.attempt with hwait | ⟨P, r, htransfer⟩
    · left
      apply hwait.withSession
      intro hpeer
      apply hwait.sessions port s.rank
      rw [hs, ← hpeer]
    · right
      refine ⟨P, r, htransfer.withSession ?_⟩
      rintro rfl
      obtain ⟨rank, hrank, hnear, hpackets, hacks⟩ := htransfer.session
      rw [hs, Option.some.injEq] at hrank
      subst hrank
      exact ⟨rfl, hnear, hpackets, hacks⟩

/-- The server starts a transfer. -/
theorem Inv.newSession {file : List UInt8} {w : Network} {port peer : ℕ}
    {rank : ℕ} (h : Inv file w) (hport : port ≠ wellKnownPort)
    (hfree : w.server port = none) (hrank : rank ≤ 1) :
    Inv file (w.withSession file port ⟨peer, rank⟩) := by
  have hnone : ∀ dst, between port dst w.toClient = [] := by
    intro dst
    apply between_eq_nil
    intro d hd hsrc _
    obtain ⟨s, hs⟩ := h.live d hd
    rw [hsrc, hfree] at hs
    cases hs
  apply h.withSession hport
  · intro old hold
    rw [hfree] at hold
    cases hold
  · rcases h.attempt with hwait | ⟨P, r, htransfer⟩
    · left
      apply hwait.withSession
      intro _
      rw [hnone]
      exact ⟨hrank, Carries.nil _ _ _⟩
    · right
      refine ⟨P, r, htransfer.withSession ?_⟩
      rintro rfl
      obtain ⟨_, hs, -⟩ := htransfer.session
      rw [hfree] at hs
      cases hs

/-- The number of an acknowledgement tells which packet it is for, as there
are two in question. -/
theorem acknowledges_ackPacket {a rank : ℕ} (hge : rank - 1 ≤ a)
    (hle : a ≤ rank) (h : acknowledges (ackPacket a) rank = true) :
    a = rank := by
  unfold acknowledges at h
  rw [ackPacket_number] at h
  simp only [Bool.and_eq_true, decide_eq_true_eq] at h
  omega

/-- A transfer of the server gets its acknowledgement and goes on. -/
theorem Inv.acknowledged {file : List UInt8} {w : Network} {d : Datagram}
    {queue : List Datagram} {s : Session} (h : Inv file w)
    (hqueue : w.toServer = d :: queue) (hs : w.server d.dst = some s)
    (hpeer : s.peer = d.src) (hcount : s.rank ≤ blockCount file)
    (hack : acknowledges d.data s.rank = true) :
    Inv file ({ w with toServer := queue }.withSession file d.dst
      ⟨s.peer, s.rank + 1⟩) := by
  have htail := h.dropToServer hqueue
  have hport : d.dst ≠ wellKnownPort := by
    intro hdst
    rw [hdst, h.wellKnown] at hs
    cases hs
  apply htail.withSession hport
  · intro old hold
    have hold' : w.server d.dst = some old := hold
    rw [hs, Option.some.injEq] at hold'
    rw [← hold']
  · rcases h.attempt with hwait | ⟨P, r, htransfer⟩
    · left
      have hwait' : Waiting file { w with toServer := queue } :=
        ⟨hwait.state, hwait.block, hwait.port, hwait.loaded,
          fun e he => hwait.requests e (by
            rw [hqueue]
            exact List.mem_cons_of_mem d he), hwait.sessions⟩
      apply hwait'.withSession
      intro hown
      have hsrc : d.src = w.client.tftpOurPort := hpeer.symm.trans hown
      exact absurd (hwait.requests d (by
        rw [hqueue]
        exact List.mem_cons_self) hsrc) hport
    · right
      obtain ⟨rank, hrank, hnear, hpackets, hacks⟩ := htransfer.session
      have htransfer' : InTransfer file P r { w with toServer := queue } := by
        refine ⟨htransfer.client, htransfer.loaded, rank, hrank, hnear,
          hpackets, ?_⟩
        rw [hqueue] at hacks
        exact carries_tail hacks
      refine ⟨P, r, htransfer'.withSession ?_⟩
      intro hdst
      rw [hdst, hrank, Option.some.injEq] at hs
      subst hs
      change w.client.tftpOurPort = d.src at hpeer
      rw [hqueue, between_cons, if_pos ⟨hpeer.symm, hdst⟩] at hacks
      obtain ⟨a, hge, hle, hdata, hrest⟩ := hacks.of_cons
      rw [hdata] at hack
      have harank : a = rank :=
        acknowledges_ackPacket hge (by omega) hack
      have hr : rank = r := by omega
      subst harank
      subst hr
      refine ⟨rfl, Or.inr rfl, hpackets.mono (le_refl _) ?_, ?_⟩
      · exact min_le_min_right _ (Nat.le_succ _)
      · exact hrest

/-- The server takes a packet. -/
theorem Inv.serverReceives {file : List UInt8} {w : Network} {d : Datagram}
    {queue : List Datagram} {port : ℕ} {oack : Bool} (h : Inv file w)
    (hqueue : w.toServer = d :: queue) :
    Inv file ({ w with toServer := queue }.serve file d port oack) := by
  have htail := h.dropToServer hqueue
  unfold serve
  by_cases hknown : d.dst = wellKnownPort
  · rw [if_pos hknown]
    split
    · rename_i hstart
      obtain ⟨-, hport, hfree⟩ := hstart
      exact htail.newSession hport hfree (by split <;> omega)
    · exact htail
  · rw [if_neg hknown]
    dsimp only
    cases hs : w.server d.dst with
    | none => exact htail
    | some s =>
        dsimp only
        split
        · rename_i hack
          obtain ⟨hpeer, hcount, hack⟩ := hack
          exact h.acknowledged hqueue hs hpeer hcount hack
        · exact htail

/-! ## Runs -/

/-- An event does not touch the defect of the handler, and an attempt starts
on a port no earlier one has left anything of. -/
def Undisturbed (w : Network) : Action → Prop
  | .clientReceives _ =>
      match w.toClient with
      | [] => True
      | d :: _ => ¬ SecondWrap w.client d
  | .clientRestarts timer =>
      w.client.netState = .netloopRestart → Fresh w (1024 + timer % 3072)
  | _ => True

theorem inv_init (file : List UInt8) (timer : ℕ) (client : Tftp) :
    Inv file (init timer client) := by
  have hfresh : Fresh ⟨client, fun _ => none, [], []⟩ (1024 + timer % 3072) := by
    constructor
    · intro d hd
      cases hd
    · intro P s hs
      cases hs
  refine Inv.start timer rfl ?_ hfresh
  intro d hd
  cases hd

/-- An undisturbed event keeps the invariant. -/
theorem Inv.next {file : List UInt8} {w : Network} {a : Action}
    (hlen : file.length < 2 ^ 32) (ha : Undisturbed w a) (h : Inv file w) :
    Inv file (w.next file a) := by
  cases a with
  | clientReceives retry =>
      rw [Undisturbed] at ha
      unfold Network.next
      dsimp only
      cases hqueue : w.toClient with
      | nil => exact h
      | cons d queue =>
          rw [hqueue] at ha
          exact h.clientReceives retry hlen hqueue ha
  | clientTimeout retry => exact h.clientTimeout retry
  | clientRestarts timer =>
      unfold Network.next
      dsimp only
      split
      · rename_i hrestart
        exact Inv.start timer h.wellKnown h.live (ha hrestart)
      · exact h
  | serverReceives port oack =>
      unfold Network.next
      dsimp only
      cases hqueue : w.toServer with
      | nil => exact h
      | cons d queue => exact h.serverReceives hqueue
  | serverTimeout port =>
      unfold Network.next
      dsimp only
      cases hs : w.server port with
      | none => exact h
      | some s => exact h.serverTimeout hs
  | lostToServer i =>
      exact h.toServer (fun _ => mem_of_mem_lose)
        fun _ _ _ _ _ hc => hc.filterMap_lose i
  | lostToClient i =>
      exact h.toClient (fun _ => mem_of_mem_lose)
        fun _ _ _ _ _ hc => hc.filterMap_lose i
  | twiceToServer i =>
      exact h.toServer (fun _ => mem_of_mem_duplicate)
        fun _ _ _ _ _ hc => hc.filterMap_duplicate i
  | twiceToClient i =>
      exact h.toClient (fun _ => mem_of_mem_duplicate)
        fun _ _ _ _ _ hc => hc.filterMap_duplicate i

/-- Success means that the whole file is loaded. -/
theorem Inv.success {file : List UInt8} {w : Network} (h : Inv file w)
    (hsuccess : w.client.netState = .netloopSuccess) :
    Memory.Holds w.client.mem.wrap w.client.loadAddr file ∧
      w.client.netBootFileXferSize = file.length := by
  have hwhole : ∀ r, w.client.Loaded file r →
      Memory.Holds w.client.mem.wrap w.client.loadAddr file ∧
        w.client.netBootFileXferSize = file.length := by
    intro r hloaded
    have hmem := hloaded.mem
    have hsize := hloaded.size
    rw [hloaded.success hsuccess, take_blockCount] at hmem hsize
    exact ⟨hmem, hsize⟩
  rcases h.attempt with hwait | ⟨P, r, htransfer⟩
  · exact hwhole 0 hwait.loaded
  · exact hwhole r htransfer.loaded

/-- In every undisturbed run over a network that loses and duplicates packets,
a client that reports success has loaded the file. -/
theorem tftp_loads (file : List UInt8) (hlen : file.length < 2 ^ 32)
    (timer : ℕ) (client : Tftp) (actions : List Action)
    (hactions : StepsMeet (step file) Undisturbed (init timer client) actions)
    (hsuccess : (run (step file) (init timer client) actions).1.client.netState =
      .netloopSuccess) :
    Memory.Holds
        (run (step file) (init timer client) actions).1.client.mem.wrap
        (run (step file) (init timer client) actions).1.client.loadAddr file ∧
      (run (step file) (init timer client)
        actions).1.client.netBootFileXferSize = file.length := by
  have hinv : Inv file (run (step file) (init timer client) actions).1 :=
    run_invariant_of_stepsMeet (P := Inv file)
      (fun _ _ ha h => Inv.next hlen ha h)
      (inv_init file timer client) hactions
  exact hinv.success hsuccess

/-- A client that has not loaded anything yet. -/
def idleClient : Tftp where
  mem := fun _ => 0
  loadAddr := 0x81000000
  bootFile := text "uImage"
  netOurIP := 0
  tftpServerPort := 0
  tftpOurPort := 0
  tftpTimeoutCount := 0
  tftpBlock := 0
  tftpLastBlock := 0
  tftpBlockWrap := 0
  tftpBlockWrapOffset := 0
  tftpState := .rrq
  netBootFileXferSize := 0
  netState := .netloopContinue
  startAgainHandler := false

/-- `netretry` is not set and there is one device. -/
def someRetry : Retry := ⟨false, false, true, true⟩

/-- The acknowledgement of the options comes twice, the first acknowledgement
of the client is lost. -/
def noisyActions : List Action :=
  [.serverReceives 1000 true, .twiceToClient 0, .clientReceives someRetry,
    .lostToServer 0, .clientReceives someRetry, .serverReceives 0 false,
    .clientReceives someRetry]

theorem tftp_loads_noisyActions :
    (run (step [1, 2, 3]) (init 7 idleClient)
      noisyActions).1.client.netState = .netloopSuccess ∧
    Memory.Holds
        (run (step [1, 2, 3]) (init 7 idleClient)
          noisyActions).1.client.mem.wrap
        (run (step [1, 2, 3]) (init 7 idleClient)
          noisyActions).1.client.loadAddr [1, 2, 3] ∧
      (run (step [1, 2, 3]) (init 7 idleClient)
        noisyActions).1.client.netBootFileXferSize = 3 := by
  have hsuccess : (run (step [1, 2, 3]) (init 7 idleClient)
      noisyActions).1.client.netState = .netloopSuccess := by
    decide
  refine ⟨hsuccess, tftp_loads [1, 2, 3] (by decide) 7 idleClient noisyActions
    ?_ hsuccess⟩
  refine ⟨trivial, trivial, ?_, trivial, ?_, trivial, ?_, trivial⟩
  · change ¬ SecondWrap _ _
    decide
  · change ¬ SecondWrap _ _
    decide
  · change ¬ SecondWrap _ _
    decide

end Network

end TateFirmware.Net
