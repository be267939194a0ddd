import TateFirmware.Net.Nfs
import TateFirmware.Support.Run

/-!
# Stale replies and complete files

A reply whose id is not that of the outstanding request still moves the client
on: in every state but one it changes `NfsState`.  What it never does is to
add to the file: a transfer that ends in success has loaded the file the
server named, when the replies with the outstanding id are the answers of the
server.
-/

namespace TateFirmware.Net

open LibGeneric Support

namespace Nfs

/-! ## Stale replies -/

/-- The protocol state, the ports, the file handles, the offset and the loaded
memory are the same. -/
structure Unchanged (st st' : Nfs) : Prop where
  nfsState : st'.nfsState = st.nfsState
  mountPort : st'.nfsSrvMountPort = st.nfsSrvMountPort
  nfsPort : st'.nfsSrvNfsPort = st.nfsSrvNfsPort
  dirfh : st'.dirfh = st.dirfh
  filefh : st'.filefh = st.filefh
  nfsOffset : st'.nfsOffset = st.nfsOffset
  mem : st'.mem = st.mem

/-- The bytes of a packet are found on the stack. -/
theorem rpcPkt_cell {stack : Memory UInt8} {p : RxPacket} {k : ℕ}
    (hk : k < p.len) : rpcPkt stack p k = p.mem k := by
  have hread : k < (p.mem.read 0 p.len).length := by
    rw [Memory.read_length]
    exact hk
  have hcopy := @Memory.copyIn_add UInt8 stack 0 k (p.mem.read 0 p.len) hread
  rw [Memory.read_getElem, Nat.zero_add] at hcopy
  exact hcopy

theorem rpcPkt_word {stack : Memory UInt8} {p : RxPacket} {i : ℕ}
    (hlen : 4 * i + 4 ≤ p.len) :
    netWord (rpcPkt stack p) i = netWord p.mem i := by
  unfold netWord
  rw [rpcPkt_cell (by omega), rpcPkt_cell (by omega),
    rpcPkt_cell (by omega), rpcPkt_cell (by omega)]

theorem rpcPkt_read {stack : Memory UInt8} {p : RxPacket} {i n : ℕ}
    (hlen : i + n ≤ p.len) :
    (rpcPkt stack p).read i n = p.mem.read i n := by
  apply Memory.read_congr
  intro k hk
  exact rpcPkt_cell (by omega)

/-- What `NfsSend` changes. -/
theorem nfsSend_kept (st : Nfs) :
    st.nfsSend.1 = { st with rpcId := st.nfsSend.1.rpcId } := by
  unfold nfsSend rpcReq
  split
  · rfl
  · rfl
  · rfl
  · split <;> rfl
  · rfl
  · rfl
  · rfl

theorem goto_kept (s : NfsState) (st : Nfs) :
    (st.goto s).1 =
      { st with nfsState := s, rpcId := (st.goto s).1.rpcId } :=
  nfsSend_kept { st with nfsState := s }

theorem unchanged_goto {s : NfsState} {st : Nfs} (hs : st.nfsState ≠ s) :
    ¬ Unchanged st (st.goto s).1 := by
  intro h
  have hstate := h.nfsState
  rw [goto_kept] at hstate
  exact hs hstate.symm

/-- No parser takes anything from a stale reply. -/
theorem stale_replies {m : Memory UInt8} {st : Nfs}
    (hid : netWord m replyId ≠ st.rpcId) :
    (∀ prog, st.rpcLookupReply prog m = st) ∧ st.nfsMountReply m = none ∧
      st.nfsUmountallReply m = none ∧ st.nfsLookupReply m = none ∧
      st.nfsReadlinkReply m = none ∧ st.nfsReadReply m = (-1, st) :=
  ⟨fun _ => if_pos hid, if_pos hid, if_pos hid, if_pos hid, if_pos hid,
    if_pos hid⟩

/-- What the handler does with a stale reply. -/
theorem nfsHandler_of_stale (stack : Memory UInt8) {p : RxPacket} {st : Nfs}
    (hlen : 4 ≤ p.len) (hid : netWord p.mem replyId ≠ st.rpcId)
    (hport : p.dest = st.nfsOurPort) :
    st.nfsHandler stack p =
      match st.nfsState with
      | .prclookupProgMountReq => st.goto .prclookupProgNfsReq
      | .prclookupProgNfsReq => st.goto .mountReq
      | .umountReq => st.finish .netloopFail
      | _ => st.goto .umountReq := by
  have hid' : netWord (rpcPkt stack p) replyId ≠ st.rpcId := by
    rw [rpcPkt_word (by unfold replyId; omega)]
    exact hid
  obtain ⟨hlookup, hmount, humount, hfile, hlink, -⟩ := stale_replies hid'
  obtain ⟨-, -, -, -, -, hread⟩ := stale_replies hid
  rw [nfsHandler, if_neg (by simpa using hport), dispatch, hlookup, hlookup,
    hmount, humount, hfile, hlink, hread]
  cases hstate : st.nfsState with
  | readReq =>
      change st.readReply (-1) = st.goto .umountReq
      rw [readReply, if_neg (by decide), if_neg (by decide),
        if_neg (by decide)]
  | prclookupProgMountReq => rfl
  | prclookupProgNfsReq => rfl
  | mountReq => rfl
  | umountReq => rfl
  | lookupReq => rfl
  | readlinkReq => rfl

/-- Whether a stale reply leaves the client alone. -/
theorem nfsHandler_stale (stack : Memory UInt8) {p : RxPacket} {st : Nfs}
    (hlen : 4 ≤ p.len) (hid : netWord p.mem replyId ≠ st.rpcId) :
    Unchanged st (st.nfsHandler stack p).1 ↔
      p.dest ≠ st.nfsOurPort ∨ st.nfsState = .umountReq := by
  by_cases hport : p.dest = st.nfsOurPort
  swap
  · rw [nfsHandler, if_pos hport]
    exact iff_of_true ⟨rfl, rfl, rfl, rfl, rfl, rfl, rfl⟩ (Or.inl hport)
  rw [nfsHandler_of_stale stack hlen hid hport]
  by_cases humount : st.nfsState = .umountReq
  · rw [humount]
    exact iff_of_true ⟨rfl, rfl, rfl, rfl, rfl, rfl, rfl⟩ (Or.inr rfl)
  · refine iff_of_false ?_ (by tauto)
    split
    · exact unchanged_goto (by rename_i h; rw [h]; decide)
    · exact unchanged_goto (by rename_i h; rw [h]; decide)
    · exact absurd (by assumption) humount
    · exact unchanged_goto humount

end Nfs

/-! ## The server -/

/-- A server that does not change: the directory handle of a path, the handle
of a name in a directory, and the contents of the handles of regular files. -/
structure NfsServer where
  mount : List UInt8 → Option (List UInt8)
  lookup : List UInt8 → List UInt8 → Option (List UInt8)
  content : List UInt8 → Option (List UInt8)
  content_length : ∀ fh c, content fh = some c → c.length < 2 ^ 32

/-- A reply without an error. -/
def RepliesOk (p : RxPacket) : Prop :=
  ¬ Nfs.badHeader p.mem ∧ netWord p.mem replyData = 0

/-- A reply with a file handle, or with an error where there is none. -/
def RepliesHandle (p : RxPacket) : Option (List UInt8) → Prop
  | some fh => RepliesOk p ∧ 4 * (replyData + 1) + nfsFhsize ≤ p.len ∧
      p.mem.read (4 * (replyData + 1)) nfsFhsize = fh
  | none => 4 * (replyData + 1) ≤ p.len ∧ ¬ RepliesOk p

/-- A reply to a read request: of a regular file some bytes from the offset on,
none only at its end, or an error that is not one of a directory or a link; of
anything else an error. -/
def RepliesRead (p : RxPacket) (offset readlen : ℕ) :
    Option (List UInt8) → Prop
  | some c => netWord p.mem replyVerifier = 0 ∧
      (RepliesOk p ∧ (∃ k ≤ readlen,
          netWord p.mem (replyData + 18) =
            ((c.drop offset).take k).length ∧
          Memory.Holds p.mem replySize ((c.drop offset).take k) ∧
          ((c.drop offset).take k = [] → c.length ≤ offset)) ∨
        ¬ RepliesOk p ∧ netWord p.mem replyData ≠ nfserrIsdir ∧
          netWord p.mem replyData ≠ nfserrInval ∧
          netWord p.mem replyData < 2 ^ 31)
  | none => netWord p.mem replyVerifier = 0 ∧ ¬ RepliesOk p ∧
      netWord p.mem replyData < 2 ^ 31

/-- A reply of the server to a request.  To the others it may reply what it
likes. -/
def NfsServer.Answers (server : NfsServer) (p : RxPacket) : NfsRequest → Prop
  | .mount path => RepliesHandle p (server.mount path)
  | .lookup dirfh name => RepliesHandle p (server.lookup dirfh name)
  | .read filefh offset readlen =>
      RepliesRead p offset readlen (server.content filefh)
  | _ => True

/-! ## Runs -/

/-- The client, and the request it has sent last. -/
structure NfsLink where
  client : Nfs
  outstanding : NfsRequest

/-- What can happen to the client. -/
inductive NfsEvent where
  | packet (stack : Memory UInt8) (p : RxPacket)
  | timeout

namespace NfsLink

/-- The client has run. -/
def withClient (w : NfsLink) (result : Nfs × List NfsCall) : NfsLink where
  client := result.1
  outstanding := (result.2.getLast?.map NfsCall.request).getD w.outstanding

/-- One event. -/
def step (w : NfsLink) : NfsEvent → NfsLink × List NfsCall
  | .packet stack p =>
      (w.withClient (w.client.nfsHandler stack p),
        (w.client.nfsHandler stack p).2)
  | .timeout => (w.withClient (w.client.nfsTimeout, []), [])

/-- `NetLoop` has started the client. -/
def init (st : Nfs) : NfsLink where
  client := st.netLoopStart.1
  outstanding := .getport progMount 1

/-- A packet has an id, and if that is the id of the outstanding request, it
is the reply of the server to it.  Any other packet may be an older reply. -/
def Genuine (server : NfsServer) (w : NfsLink) : NfsEvent → Prop
  | .packet _ p => 4 ≤ p.len ∧
      (netWord p.mem replyId = w.client.rpcId →
        server.Answers p w.outstanding)
  | .timeout => True

/-- The file that the server names for the path and the file name of the
client is in memory. -/
structure Complete (server : NfsServer) (st : Nfs) : Prop where
  named : ∃ dirfh, server.mount st.nfsPath = some dirfh ∧
    server.lookup dirfh st.nfsFilename = some st.filefh
  loaded : ∃ c, server.content st.filefh = some c ∧
    Memory.Holds st.mem.wrap st.loadAddr c ∧
    st.netBootFileXferSize = c.length

/-- The file is being read. -/
structure Reading (server : NfsServer) (w : NfsLink) : Prop where
  mounted : server.mount w.client.nfsPath = some w.client.dirfh
  named : server.lookup w.client.dirfh w.client.nfsFilename =
    some w.client.filefh
  len : w.client.nfsLen = nfsReadSize
  outstanding : w.outstanding =
    .read w.client.filefh w.client.nfsOffset w.client.nfsLen
  size : w.client.netBootFileXferSize = w.client.nfsOffset
  loaded : match server.content w.client.filefh with
    | some c => w.client.nfsOffset ≤ c.length ∧
        Memory.Holds w.client.mem.wrap w.client.loadAddr
          (c.take w.client.nfsOffset)
    | none => w.client.nfsOffset = 0

/-- What holds in each state of the protocol while the file is not complete. -/
def Pending (server : NfsServer) (w : NfsLink) : Prop :=
  match w.client.nfsState with
  | .mountReq => w.outstanding = .mount w.client.nfsPath ∧
      w.client.netBootFileXferSize = 0
  | .lookupReq =>
      w.outstanding = .lookup w.client.dirfh w.client.nfsFilename ∧
        server.mount w.client.nfsPath = some w.client.dirfh ∧
        w.client.netBootFileXferSize = 0
  | .readReq => Reading server w
  | .umountReq => True
  | _ => w.client.netBootFileXferSize = 0

/-- The client has seen the end of the file, or has reported success. -/
def Finished (st : Nfs) : Prop :=
  st.nfsDownloadState = .netloopSuccess ∨ st.netState = .netloopSuccess

/-- What holds between two events. -/
structure Inv (server : NfsServer) (w : NfsLink) : Prop where
  pending : Pending server w
  finished : Finished w.client →
    w.client.nfsState = .umountReq ∧ Complete server w.client

/-! ## Replies that are taken -/

/-- A reply with a file handle that is taken has the handle of the server. -/
theorem handle_of_replies {stack : Memory UInt8} {p : RxPacket}
    {answer : Option (List UInt8)} (h : RepliesHandle p answer)
    (hok : ¬ (Nfs.badHeader (Nfs.rpcPkt stack p) ∨
      netWord (Nfs.rpcPkt stack p) replyData ≠ 0)) :
    answer = some
      ((Nfs.rpcPkt stack p).read (4 * (replyData + 1)) nfsFhsize) := by
  have hlen : 4 * (replyData + 1) ≤ p.len := by
    cases answer with
    | none => exact h.1
    | some fh => exact (Nat.le_add_right _ _).trans h.2.1
  have hword : ∀ i, i ≤ replyData →
      netWord (Nfs.rpcPkt stack p) i = netWord p.mem i := by
    intro i hi
    exact Nfs.rpcPkt_word (by omega)
  rw [Nfs.badHeader, hword _ (by decide), hword _ (by decide),
    hword _ (by decide), hword _ (by decide)] at hok
  have hreply : RepliesOk p := by
    refine ⟨fun hbad => hok (Or.inl hbad), ?_⟩
    by_contra hdata
    exact hok (Or.inr hdata)
  cases answer with
  | none => exact absurd hreply h.2
  | some fh => rw [Nfs.rpcPkt_read h.2.1, h.2.2]

/-! ## One event -/

/-- The client goes on to another state. -/
theorem Inv.goto {server : NfsServer} {w : NfsLink} {st : Nfs} {s : NfsState}
    (hpending : Pending server (w.withClient (st.goto s)))
    (hfinished : Finished st → s = .umountReq ∧ Complete server st) :
    Inv server (w.withClient (st.goto s)) := by
  refine ⟨hpending, ?_⟩
  rw [withClient, Nfs.goto_kept]
  intro h
  obtain ⟨hs, hnamed, hloaded⟩ := hfinished h
  exact ⟨hs, hnamed, hloaded⟩

/-- The client gives up; nothing is asked of this state. -/
theorem Inv.giveUp {server : NfsServer} {w : NfsLink} {st : Nfs}
    (hfinished : Finished st → Complete server st) :
    Inv server (w.withClient (st.goto .umountReq)) := by
  refine Inv.goto ?_ (fun h => ⟨rfl, hfinished h⟩)
  unfold Pending
  rw [withClient, Nfs.goto_kept]
  trivial

theorem Inv.not_finished {server : NfsServer} {w : NfsLink}
    (h : Inv server w) (hstate : w.client.nfsState ≠ .umountReq) :
    ¬ Finished w.client :=
  fun hfinished => hstate (h.finished hfinished).1

theorem Inv.quiet {server : NfsServer} {w : NfsLink} (h : Inv server w) :
    Inv server (w.withClient (w.client, [])) := h

/-- The client fails. -/
theorem Inv.fail {server : NfsServer} {w : NfsLink} (h : Inv server w) :
    Inv server (w.withClient (w.client.finish .netloopFail)) := by
  refine ⟨?_, ?_⟩
  · have hpending := h.pending
    cases hstate : w.client.nfsState with
    | readReq =>
        simp only [Pending, withClient, Nfs.finish, hstate] at hpending ⊢
        obtain ⟨hmounted, hnamed, hlen, houtstanding, hsize, hloaded⟩ :=
          hpending
        exact ⟨hmounted, hnamed, hlen, houtstanding, hsize, hloaded⟩
    | umountReq => simp only [Pending, withClient, Nfs.finish, hstate]
    | _ =>
        simp only [Pending, withClient, Nfs.finish, hstate] at hpending ⊢
        exact hpending
  · rintro (hdownload | hnet)
    · obtain ⟨hs, hnamed, hloaded⟩ := h.finished (Or.inl hdownload)
      exact ⟨hs, hnamed, hloaded⟩
    · cases hnet

/-- A reply to a request that is not outstanding. -/
theorem Inv.stale {server : NfsServer} {w : NfsLink} {p : RxPacket}
    (stack : Memory UInt8) (h : Inv server w) (hlen : 4 ≤ p.len)
    (hid : netWord p.mem replyId ≠ w.client.rpcId)
    (hport : p.dest = w.client.nfsOurPort) :
    Inv server (w.withClient (w.client.nfsHandler stack p)) := by
  have hpending := h.pending
  rw [Nfs.nfsHandler_of_stale stack hlen hid hport]
  unfold Pending at hpending
  split
  · rename_i hstate
    rw [hstate] at hpending
    have hrunning := h.not_finished (by rw [hstate]; decide)
    exact Inv.goto hpending (fun hfinished => absurd hfinished hrunning)
  · rename_i hstate
    rw [hstate] at hpending
    have hrunning := h.not_finished (by rw [hstate]; decide)
    exact Inv.goto ⟨rfl, hpending⟩
      (fun hfinished => absurd hfinished hrunning)
  · exact h.fail
  · rename_i _ _ hstate
    exact Inv.giveUp
      (fun hfinished => absurd hfinished (h.not_finished hstate))

/-! ### The reply to a read request -/

theorem readReply_error {server : NfsServer} {w : NfsLink} {rlen : ℤ}
    (h : Inv server w) (hstate : w.client.nfsState = .readReq)
    (hneg : rlen < 0)
    (hlink : rlen = -nfserrIsdir ∨ rlen = -nfserrInval →
      w.client.netBootFileXferSize = 0) :
    Inv server (w.withClient (w.client.readReply rlen)) := by
  have hrunning := h.not_finished (by rw [hstate]; decide)
  rw [Nfs.readReply, if_neg (by omega)]
  split
  · rename_i herror
    exact Inv.goto (hlink herror)
      (fun hfinished => absurd hfinished hrunning)
  · rw [if_neg (by omega)]
    exact Inv.giveUp (fun hfinished => absurd hfinished hrunning)

theorem toInt32_neg {n : ℕ} (hpos : 0 < n) (hn : n < 2 ^ 31) :
    toInt32 ((2 ^ 32 - n) % 2 ^ 32) = -n := by
  unfold toInt32
  rw [if_neg (by omega)]
  omega

/-- A read request is refused. -/
theorem nfsReadReply_error {p : RxPacket} {st : Nfs}
    (hid : netWord p.mem replyId = st.rpcId)
    (hverifier : netWord p.mem replyVerifier = 0) (hok : ¬ RepliesOk p)
    (hlt : netWord p.mem replyData < 2 ^ 31) :
    ∃ rlen, st.nfsReadReply p.mem = (rlen, st) ∧ rlen < 0 ∧
      (rlen = -nfserrIsdir → netWord p.mem replyData = nfserrIsdir) ∧
      (rlen = -nfserrInval → netWord p.mem replyData = nfserrInval) := by
  have hbad : Nfs.badHeader p.mem ∨ netWord p.mem replyData ≠ 0 := by
    by_contra hgood
    rw [not_or, not_not] at hgood
    exact hok hgood
  have hdir : nfserrIsdir = 21 := rfl
  have hinval : nfserrInval = 22 := rfl
  unfold Nfs.nfsReadReply
  rw [if_neg (by simpa using hid), if_pos hbad]
  by_cases hrstatus : netWord p.mem replyRstatus = 0
  swap
  · rw [if_pos hrstatus]
    exact ⟨_, rfl, by decide, by omega, by omega⟩
  rw [if_neg (by simpa using hrstatus)]
  by_cases hastatus : netWord p.mem replyAstatus = 0
  swap
  · rw [if_pos hastatus]
    exact ⟨_, rfl, by decide, by omega, by omega⟩
  rw [if_neg (by simpa using hastatus)]
  have hpos : 0 < netWord p.mem replyData := by
    rcases hbad with (h | h | h) | h
    · exact absurd hrstatus h
    · exact absurd hverifier h
    · exact absurd hastatus h
    · exact Nat.pos_of_ne_zero h
  rw [toInt32_neg hpos hlt]
  exact ⟨_, rfl, by omega, by omega, by omega⟩

/-- A read request is answered with bytes of the file. -/
theorem nfsReadReply_chunk {p : RxPacket} {st : Nfs} {chunk : List UInt8}
    (hid : netWord p.mem replyId = st.rpcId) (hok : RepliesOk p)
    (hlen : netWord p.mem (replyData + 18) = chunk.length)
    (hholds : Memory.Holds p.mem replySize chunk) :
    st.nfsReadReply p.mem =
      (toInt32 chunk.length, st.storeBlock chunk st.nfsOffset) := by
  have hgood : ¬ (Nfs.badHeader p.mem ∨ netWord p.mem replyData ≠ 0) := by
    rintro (hbad | hdata)
    · exact hok.1 hbad
    · exact hdata hok.2
  rw [Nfs.nfsReadReply, if_neg (by simpa using hid), if_neg hgood, hlen]
  dsimp only
  rw [hholds.read_eq]

/-- The file stands in memory up to the end of the block. -/
theorem storeBlock_loaded {st : Nfs} {c chunk : List UInt8}
    (hc : c.length < 2 ^ 32)
    (hchunk : chunk <+: c.drop st.nfsOffset)
    (hoffset : st.nfsOffset ≤ c.length)
    (hsize : st.netBootFileXferSize = st.nfsOffset)
    (hloaded : Memory.Holds st.mem.wrap st.loadAddr (c.take st.nfsOffset)) :
    let st' := st.storeBlock chunk st.nfsOffset
    st.nfsOffset + chunk.length ≤ c.length ∧
      Memory.Holds st'.mem.wrap st'.loadAddr
        (c.take (st.nfsOffset + chunk.length)) ∧
      st'.netBootFileXferSize = st.nfsOffset + chunk.length := by
  have hle : st.nfsOffset + chunk.length ≤ c.length := by
    have hstarts := hchunk.length_le
    rw [List.length_drop] at hstarts
    omega
  have htake : (c.take st.nfsOffset).length = st.nfsOffset := by
    rw [List.length_take]
    exact Nat.min_eq_left hoffset
  refine ⟨hle, ?_, ?_⟩
  · rw [List.take_add, ← List.prefix_iff_eq_take.mp hchunk]
    have happend :=
      @Memory.Holds.append_copyWrap UInt8 _ _ _ chunk hloaded (by omega)
    rw [htake] at happend
    exact happend
  · change (if st.netBootFileXferSize <
      (st.nfsOffset + chunk.length) % 2 ^ 32 then _ else _) = _
    rw [hsize, Nat.mod_eq_of_lt (by omega)]
    split
    · rfl
    · omega

/-- The reply to the outstanding read request. -/
theorem Inv.read {server : NfsServer} {w : NfsLink} {p : RxPacket}
    (h : Inv server w) (hstate : w.client.nfsState = .readReq)
    (hid : netWord p.mem replyId = w.client.rpcId)
    (hanswers : server.Answers p w.outstanding) :
    Inv server (w.withClient
      ((w.client.nfsReadReply p.mem).2.readReply
        (w.client.nfsReadReply p.mem).1)) := by
  have hrunning := h.not_finished (by rw [hstate]; decide)
  have hreading : Reading server w := by
    have hpending := h.pending
    rw [Pending, hstate] at hpending
    exact hpending
  obtain ⟨hmounted, hnamed, hlen, houtstanding, hsize, hloaded⟩ := hreading
  rw [houtstanding] at hanswers
  change RepliesRead p w.client.nfsOffset w.client.nfsLen
    (server.content w.client.filefh) at hanswers
  cases hcontent : server.content w.client.filefh with
  | none =>
      rw [hcontent] at hanswers hloaded
      obtain ⟨hverifier, hok, hlt⟩ := hanswers
      obtain ⟨rlen, hreply, hneg, -, -⟩ :=
        nfsReadReply_error hid hverifier hok hlt
      rw [hreply]
      exact readReply_error h hstate hneg (fun _ => hsize.trans hloaded)
  | some c =>
      rw [hcontent] at hanswers hloaded
      obtain ⟨hverifier, hreply⟩ := hanswers
      have hc := server.content_length _ c hcontent
      obtain ⟨hoffset, hholds⟩ := hloaded
      rcases hreply with ⟨hok, k, hk, hword, hdata, hend⟩ |
          ⟨hok, hisdir, hinval, hlt⟩
      swap
      · obtain ⟨rlen, hreply, hneg, hdir, hinv⟩ :=
          nfsReadReply_error hid hverifier hok hlt
        rw [hreply]
        refine readReply_error h hstate hneg ?_
        rintro (herror | herror)
        · exact absurd (hdir herror) hisdir
        · exact absurd (hinv herror) hinval
      rw [nfsReadReply_chunk hid hok hword hdata]
      have hstarts := List.take_prefix k (c.drop w.client.nfsOffset)
      have hsmall := List.length_take_le k (c.drop w.client.nfsOffset)
      generalize (c.drop w.client.nfsOffset).take k = chunk at *
      obtain ⟨hle, hholds', hsize'⟩ :=
        storeBlock_loaded hc hstarts hoffset hsize hholds
      have hblock : nfsReadSize = 1024 := rfl
      have hint : toInt32 chunk.length = chunk.length :=
        if_pos (by omega)
      dsimp only
      rw [hint, Nfs.readReply]
      by_cases hempty : chunk = []
      · subst hempty
        rw [if_neg (by simp), if_neg (by decide)]
        have hwhole : w.client.nfsOffset = c.length :=
          Nat.le_antisymm hoffset (hend rfl)
        rw [List.length_nil, Nat.add_zero, hwhole, List.take_length]
          at hholds'
        rw [List.length_nil, Nat.add_zero, hwhole] at hsize'
        refine Inv.giveUp (fun _ => ⟨⟨_, hmounted, hnamed⟩, c, hcontent, ?_⟩)
        rw [hwhole]
        exact ⟨hholds', hsize'⟩
      · have hpos := List.length_pos_iff.mpr hempty
        rw [if_pos (by omega), Int.toNat_natCast]
        refine Inv.goto ?_ (fun hfinished => absurd hfinished hrunning)
        have hoffset' : (w.client.nfsOffset + chunk.length) % 2 ^ 32 =
            w.client.nfsOffset + chunk.length :=
          Nat.mod_eq_of_lt (by omega)
        change Reading server (w.withClient (Nfs.goto .readReq _))
        refine ⟨hmounted, hnamed, hlen, rfl, ?_, ?_⟩
        · exact hsize'.trans hoffset'.symm
        · change match server.content w.client.filefh with
            | some c => _
            | none => _
          rw [hcontent]
          change (w.client.nfsOffset + chunk.length) % 2 ^ 32 ≤ c.length ∧
            Memory.Holds _ _
              (c.take ((w.client.nfsOffset + chunk.length) % 2 ^ 32))
          rw [hoffset']
          exact ⟨hle, hholds'⟩

/-! ### The replies in the other states -/

theorem rpcLookupReply_kept (prog : ℕ) (m : Memory UInt8) (st : Nfs) :
    ∃ mountPort nfsPort,
      st.rpcLookupReply prog m =
        { st with
          nfsSrvMountPort := mountPort
          nfsSrvNfsPort := nfsPort } := by
  unfold Nfs.rpcLookupReply
  split
  · exact ⟨st.nfsSrvMountPort, st.nfsSrvNfsPort, rfl⟩
  split
  · exact ⟨st.nfsSrvMountPort, st.nfsSrvNfsPort, rfl⟩
  split
  · exact ⟨netWord m replyData, st.nfsSrvNfsPort, rfl⟩
  split
  · exact ⟨st.nfsSrvMountPort, netWord m replyData, rfl⟩
  · exact ⟨st.nfsSrvMountPort, st.nfsSrvNfsPort, rfl⟩

/-- A port is looked up. -/
theorem Inv.lookedUp {server : NfsServer} {w : NfsLink} {s : NfsState}
    (h : Inv server w) (hstate : w.client.nfsState ≠ .umountReq)
    (prog : ℕ) (m : Memory UInt8)
    (hpending : ∀ mountPort nfsPort,
      Pending server (w.withClient
        (Nfs.goto s { w.client with
          nfsSrvMountPort := mountPort
          nfsSrvNfsPort := nfsPort }))) :
    Inv server (w.withClient ((w.client.rpcLookupReply prog m).goto s)) := by
  have hrunning := h.not_finished hstate
  obtain ⟨mountPort, nfsPort, hkept⟩ := rpcLookupReply_kept prog m w.client
  rw [hkept]
  exact Inv.goto (hpending mountPort nfsPort) (fun hfinished => absurd hfinished hrunning)

theorem Inv.mounted {server : NfsServer} {w : NfsLink} {p : RxPacket}
    {stack : Memory UInt8} {st : Nfs} (h : Inv server w)
    (hstate : w.client.nfsState = .mountReq)
    (hanswers : server.Answers p w.outstanding)
    (hreply : w.client.nfsMountReply (Nfs.rpcPkt stack p) = some st) :
    Inv server (w.withClient (st.goto .lookupReq)) := by
  have hrunning := h.not_finished (by rw [hstate]; decide)
  have hpending := h.pending
  rw [Pending, hstate] at hpending
  obtain ⟨houtstanding, hsize⟩ := hpending
  rw [houtstanding] at hanswers
  unfold Nfs.nfsMountReply at hreply
  split at hreply
  · cases hreply
  split at hreply
  · cases hreply
  rename_i hok
  have hhandle := handle_of_replies hanswers hok
  cases hreply
  exact Inv.goto ⟨rfl, hhandle, hsize⟩
    (fun hfinished => absurd hfinished hrunning)

theorem Inv.found {server : NfsServer} {w : NfsLink} {p : RxPacket}
    {stack : Memory UInt8} {st : Nfs} (h : Inv server w)
    (hstate : w.client.nfsState = .lookupReq)
    (hanswers : server.Answers p w.outstanding)
    (hreply : w.client.nfsLookupReply (Nfs.rpcPkt stack p) = some st) :
    Inv server (w.withClient
      (Nfs.goto .readReq
        { st with nfsOffset := 0, nfsLen := nfsReadSize })) := by
  have hrunning := h.not_finished (by rw [hstate]; decide)
  have hpending := h.pending
  rw [Pending, hstate] at hpending
  obtain ⟨houtstanding, hmounted, hsize⟩ := hpending
  rw [houtstanding] at hanswers
  unfold Nfs.nfsLookupReply at hreply
  split at hreply
  · cases hreply
  split at hreply
  · cases hreply
  rename_i hok
  have hhandle := handle_of_replies hanswers hok
  cases hreply
  refine Inv.goto ?_ (fun hfinished => absurd hfinished hrunning)
  change Reading server (w.withClient (Nfs.goto .readReq _))
  refine ⟨hmounted, hhandle, rfl, rfl, hsize, ?_⟩
  split
  · refine ⟨Nat.zero_le _, ?_⟩
    intro k hk
    cases hk
  · rfl

/-- A link is followed. -/
theorem Inv.linked {server : NfsServer} {w : NfsLink} {m : Memory UInt8}
    {st : Nfs} (h : Inv server w) (hstate : w.client.nfsState = .readlinkReq)
    (hreply : w.client.nfsReadlinkReply m = some st) :
    Inv server (w.withClient
      (Nfs.goto .mountReq
        { st with
          filenameAt := basename st.pathBuff
          pathBuff := dirname st.pathBuff })) := by
  have hrunning := h.not_finished (by rw [hstate]; decide)
  have hpending := h.pending
  rw [Pending, hstate] at hpending
  unfold Nfs.nfsReadlinkReply at hreply
  split at hreply
  · cases hreply
  split at hreply
  · cases hreply
  dsimp only at hreply
  split at hreply <;> cases hreply
  · exact Inv.goto ⟨rfl, hpending⟩
      (fun hfinished => absurd hfinished hrunning)
  · exact Inv.goto ⟨rfl, hpending⟩
      (fun hfinished => absurd hfinished hrunning)

/-- The server has answered the last request. -/
theorem Inv.unmounted {server : NfsServer} {w : NfsLink} {m : Memory UInt8}
    {st : Nfs} (h : Inv server w) (hstate : w.client.nfsState = .umountReq)
    (hreply : w.client.nfsUmountallReply m = some st) :
    Inv server (w.withClient (st.finish st.nfsDownloadState)) := by
  unfold Nfs.nfsUmountallReply at hreply
  split at hreply
  · cases hreply
  split at hreply
  · cases hreply
  cases hreply
  refine ⟨?_, ?_⟩
  · simp only [Pending, withClient, Nfs.finish, hstate]
  · intro hfinished
    have hdownload : Finished w.client := Or.inl (or_self_iff.mp hfinished)
    obtain ⟨hs, hnamed, hloaded⟩ := h.finished hdownload
    exact ⟨hs, hnamed, hloaded⟩

/-- The reply to the outstanding request. -/
theorem Inv.fresh {server : NfsServer} {w : NfsLink} {p : RxPacket}
    (stack : Memory UInt8) (h : Inv server w)
    (hid : netWord p.mem replyId = w.client.rpcId)
    (hanswers : server.Answers p w.outstanding) :
    Inv server
      (w.withClient (w.client.dispatch (Nfs.rpcPkt stack p) p.mem)) := by
  have hpending := h.pending
  rw [Nfs.dispatch]
  cases hstate : w.client.nfsState with
  | prclookupProgMountReq =>
      rw [Pending, hstate] at hpending
      exact h.lookedUp (by rw [hstate]; decide) _ _ (fun _ _ => hpending)
  | prclookupProgNfsReq =>
      rw [Pending, hstate] at hpending
      exact h.lookedUp (by rw [hstate]; decide) _ _
        (fun _ _ => ⟨rfl, hpending⟩)
  | mountReq =>
      have hrunning := h.not_finished (by rw [hstate]; decide)
      cases hreply : w.client.nfsMountReply (Nfs.rpcPkt stack p) with
      | none => exact Inv.giveUp (fun hfinished => absurd hfinished hrunning)
      | some st => exact h.mounted hstate hanswers hreply
  | umountReq =>
      cases hreply : w.client.nfsUmountallReply (Nfs.rpcPkt stack p) with
      | none => exact h.fail
      | some st => exact h.unmounted hstate hreply
  | lookupReq =>
      have hrunning := h.not_finished (by rw [hstate]; decide)
      cases hreply : w.client.nfsLookupReply (Nfs.rpcPkt stack p) with
      | none => exact Inv.giveUp (fun hfinished => absurd hfinished hrunning)
      | some st => exact h.found hstate hanswers hreply
  | readlinkReq =>
      have hrunning := h.not_finished (by rw [hstate]; decide)
      cases hreply : w.client.nfsReadlinkReply (Nfs.rpcPkt stack p) with
      | none => exact Inv.giveUp (fun hfinished => absurd hfinished hrunning)
      | some st => exact h.linked hstate hreply
  | readReq => exact h.read hstate hid hanswers

/-! ## Runs of the client -/

theorem inv_step {server : NfsServer} (w : NfsLink) (e : NfsEvent)
    (hgenuine : Genuine server w e) (h : Inv server w) :
    Inv server (w.step e).1 := by
  cases e with
  | timeout => exact h.fail
  | packet stack p =>
      obtain ⟨hlen, hanswers⟩ := hgenuine
      change Inv server (w.withClient (w.client.nfsHandler stack p))
      by_cases hport : p.dest = w.client.nfsOurPort
      swap
      · rw [Nfs.nfsHandler, if_pos hport]
        exact h.quiet
      by_cases hid : netWord p.mem replyId = w.client.rpcId
      · rw [Nfs.nfsHandler, if_neg (by simpa using hport)]
        exact h.fresh stack hid (hanswers hid)
      · exact h.stale stack hlen hid hport

theorem inv_init (server : NfsServer) (st : Nfs) : Inv server (init st) := by
  refine ⟨rfl, ?_⟩
  rintro (hdownload | hnet)
  · cases hdownload
  · cases hnet

/-- A transfer that is reported as successful has loaded the file. -/
theorem complete_of_success {server : NfsServer} {st : Nfs}
    {events : List NfsEvent}
    (hgenuine : StepsMeet step (Genuine server) (init st) events)
    (hsuccess : (run step (init st) events).1.client.netState =
      .netloopSuccess) :
    Complete server (run step (init st) events).1.client := by
  have h := run_invariant_of_stepsMeet (P := Inv server) inv_step
    (inv_init server st) hgenuine
  exact (h.finished (Or.inr hsuccess)).2

/-- Stale replies in any state, and the transfers of any run. -/
theorem nfs_stale_and_complete (stack : Memory UInt8) (p : RxPacket)
    (st start : Nfs) (server : NfsServer) (events : List NfsEvent) :
    (4 ≤ p.len → netWord p.mem replyId ≠ st.rpcId →
        (Nfs.Unchanged st (st.nfsHandler stack p).1 ↔
          p.dest ≠ st.nfsOurPort ∨ st.nfsState = .umountReq)) ∧
      (StepsMeet step (Genuine server) (init start) events →
        (run step (init start) events).1.client.netState =
          .netloopSuccess →
        Complete server (run step (init start) events).1.client) :=
  ⟨Nfs.nfsHandler_stale stack, complete_of_success⟩

/-! ## A transfer -/

/-- A 32-bit word on the wire. -/
def netBytes (n : ℕ) : List UInt8 :=
  [UInt8.ofNat (n / 2 ^ 24), UInt8.ofNat (n / 2 ^ 16), UInt8.ofNat (n / 2 ^ 8),
    UInt8.ofNat n]

/-- A reply without an error in its header. -/
def nfsReply (id : ℕ) (data : List UInt8) : RxPacket :=
  let bytes := netBytes id ++ netBytes 1 ++ List.replicate 16 0 ++ data
  ⟨Memory.ofList 0 bytes, bytes.length, 1000, 2049, [2, 0, 0, 0, 0, 1]⟩

/-- A client before it is started. -/
def idleNfs : Nfs where
  mem := Memory.ofList 0 []
  loadAddr := 0x80000000
  netBootFileXferSize := 0
  netOurIP := 0
  bootFile := text "/d/f" ++ [0]
  fsMounted := false
  rpcId := 6
  nfsOffset := 0
  nfsLen := 0
  dirfh := List.replicate nfsFhsize 0
  filefh := List.replicate nfsFhsize 0
  nfsDownloadState := .netloopFail
  nfsSrvMountPort := 0
  nfsSrvNfsPort := 0
  nfsOurPort := 0
  nfsState := .umountReq
  pathBuff := Memory.ofList 0 []
  filenameAt := 0
  netState := .netloopContinue

/-- A server with one file. -/
def oneFile : NfsServer where
  mount _ := some (List.replicate nfsFhsize 1)
  lookup _ _ := some (List.replicate nfsFhsize 2)
  content _ := some [5, 6, 7]
  content_length := by
    intro fh c hc
    cases hc
    decide

/-- The replies up to the handle of the file. -/
def upToLookup : List NfsEvent :=
  [.packet (Memory.ofList 0 []) (nfsReply 7 (netBytes 635)),
    .packet (Memory.ofList 0 []) (nfsReply 8 (netBytes 2049)),
    .packet (Memory.ofList 0 [])
      (nfsReply 9 (netBytes 0 ++ List.replicate nfsFhsize 1)),
    .packet (Memory.ofList 0 [])
      (nfsReply 10 (netBytes 0 ++ List.replicate nfsFhsize 2))]

/-- The replies to the read requests and to the last one. -/
def upToUmount : List NfsEvent :=
  [.packet (Memory.ofList 0 []) (nfsReply 11
      (List.replicate 72 0 ++ netBytes 3 ++ [5, 6, 7])),
    .packet (Memory.ofList 0 []) (nfsReply 12
      (List.replicate 72 0 ++ netBytes 0)),
    .packet (Memory.ofList 0 []) (nfsReply 13 [])]

theorem genuine_packet {server : NfsServer} {w : NfsLink}
    {stack : Memory UInt8} {p : RxPacket} {request : NfsRequest}
    (houtstanding : w.outstanding = request) (hlen : 4 ≤ p.len)
    (hanswers : server.Answers p request) :
    Genuine server w (.packet stack p) := by
  refine ⟨hlen, fun _ => ?_⟩
  rw [houtstanding]
  exact hanswers

theorem genuine_oneFile :
    StepsMeet step (Genuine oneFile) (init idleNfs)
      (upToLookup ++ upToUmount) := by
  refine ⟨?_, ?_, ?_, ?_, ?_, ?_, ?_, trivial⟩
  · exact @genuine_packet _ _ _ _ (.getport progMount 1) rfl
      (by decide) trivial
  · exact @genuine_packet _ _ _ _ (.getport progNfs 2) (by decide)
      (by decide) trivial
  · exact @genuine_packet _ _ _ _ (.mount (text "/d")) (by decide +kernel)
      (by decide)
      ⟨⟨by decide, by decide⟩, by decide,
        by decide⟩
  · exact @genuine_packet _ _ _ _
      (.lookup (List.replicate nfsFhsize 1) (text "f")) (by decide +kernel)
      (by decide)
      ⟨⟨by decide, by decide⟩, by decide,
        by decide⟩
  · exact @genuine_packet _ _ _ _
      (.read (List.replicate nfsFhsize 2) 0 nfsReadSize) (by decide)
      (by decide)
      ⟨by decide, Or.inl ⟨⟨by decide, by decide⟩, 3,
        by decide, by decide,
        Memory.holds_iff_read.2 (by decide), by decide⟩⟩
  · exact @genuine_packet _ _ _ _
      (.read (List.replicate nfsFhsize 2) 3 nfsReadSize) (by decide)
      (by decide)
      ⟨by decide, Or.inl ⟨⟨by decide, by decide⟩, 0,
        by decide, by decide,
        Memory.holds_iff_read.2 (by decide), by decide⟩⟩
  · exact @genuine_packet _ _ _ _ .umountall (by decide)
      (by decide) trivial

theorem nfs_stale_and_complete_oneFile :
    (Nfs.Unchanged idleNfs
        (idleNfs.nfsHandler (Memory.ofList 0 []) (nfsReply 0 [])).1 ↔
      (nfsReply 0 []).dest ≠ idleNfs.nfsOurPort ∨
        idleNfs.nfsState = .umountReq) ∧
      Complete oneFile
        (run step (init idleNfs) (upToLookup ++ upToUmount)).1.client :=
  let h := nfs_stale_and_complete (Memory.ofList 0 []) (nfsReply 0 [])
    idleNfs idleNfs oneFile (upToLookup ++ upToUmount)
  ⟨h.1 (by decide) (by decide),
    h.2 genuine_oneFile (by decide)⟩

/-- The reply to the lookup arrives again while the file is read: the client
stops reading. -/
theorem not_unchanged_duplicate :
    let st := (run step (init idleNfs) upToLookup).1.client
    let p := nfsReply 10 (netBytes 0 ++ List.replicate nfsFhsize 2)
    netWord p.mem replyId ≠ st.rpcId ∧ st.nfsState = .readReq ∧
      (st.nfsHandler (Memory.ofList 0 []) p).1.nfsState = .umountReq ∧
      ¬ Nfs.Unchanged st (st.nfsHandler (Memory.ofList 0 []) p).1 := by
  intro st p
  have hread : st.nfsState = .readReq := by decide
  have humount :
      (st.nfsHandler (Memory.ofList 0 []) p).1.nfsState = .umountReq := by
    decide
  refine ⟨by decide, hread, humount, fun hunchanged => ?_⟩
  have hsame := hunchanged.nfsState
  rw [hread, humount] at hsame
  cases hsame

end NfsLink

end TateFirmware.Net
