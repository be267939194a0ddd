import TateFirmware.Net.NfsPath

/-!
# What the NFS reply parsers copy

Each parser copies the packet into a structure on the stack, with the length of the
UDP datagram; `nfs_readlink_reply` and `nfs_read_reply` copy data out of it, with a
length taken from the packet.  A `Copy` compares how much is written from the start
of a destination with how much there is room for.

`nfs_readlink_reply` writes the NUL behind a relative target one byte too far, so
that the new path ends in a byte that was in the buffer before.
-/

namespace TateFirmware.Net

open LibGeneric Support

/-- A copy to a destination: how many bytes there is room for, and where the last
byte written ends. -/
structure Copy where
  room : ℕ
  count : ℕ
deriving DecidableEq, Repr

/-- `sizeof(struct rpc_t)`. -/
def rpcPktSize : ℕ := 2048

namespace Nfs

variable (m : Memory UInt8) (st : Nfs)

/-- The parser takes the reply for one to its request that has succeeded. -/
def Accepted : Prop :=
  netWord m replyId = st.rpcId ∧ ¬ (badHeader m ∨ netWord m replyData ≠ 0)

instance : Decidable (st.Accepted m) := inferInstanceAs (Decidable (_ ∧ _))

/-- `rlen` of `nfs_readlink_reply`. -/
def linkLen : ℕ := netWord m (replyData + 1)

/-- The target of the link. -/
def linkTarget : List UInt8 := m.read (4 * (replyData + 2)) (linkLen m)

/-- The target of the link is relative. -/
def LinkRelative : Prop := m (4 * (replyData + 2)) ≠ ch '/'

instance : Decidable (LinkRelative m) := inferInstanceAs (Decidable (_ ≠ _))

/-- What `nfs_readlink_reply` writes into the path buffer. -/
def linkCopies : List Copy :=
  if LinkRelative m then
    let pathlen := st.nfsPath.length + 1
    [⟨nfsPathSize, pathlen + 1⟩, ⟨nfsPathSize, pathlen + linkLen m⟩,
      ⟨nfsPathSize, pathlen + linkLen m + 2⟩]
  else [⟨nfsPathSize, linkLen m⟩, ⟨nfsPathSize, linkLen m + 1⟩]

/-- The copies of the parser for the state, for a packet of `len` bytes: `m` is the
structure on the stack behind the first one, and `pkt` the packet. -/
def replyCopies (pkt : Memory UInt8) (len : ℕ) : List Copy :=
  match st.nfsState with
  | .prclookupProgMountReq => [⟨rpcPktSize, len⟩]
  | .prclookupProgNfsReq => [⟨rpcPktSize, len⟩]
  | .mountReq =>
      ⟨rpcPktSize, len⟩ ::
        if st.Accepted m then [⟨nfsFhsize, nfsFhsize⟩] else []
  | .umountReq =>
      ⟨rpcPktSize, len⟩ ::
        if netWord m replyId = st.rpcId ∧ ¬ badHeader m then [⟨nfsFhsize, nfsFhsize⟩]
        else []
  | .lookupReq =>
      ⟨rpcPktSize, len⟩ ::
        if st.Accepted m then [⟨nfsFhsize, nfsFhsize⟩] else []
  | .readlinkReq =>
      ⟨rpcPktSize, len⟩ :: if st.Accepted m then linkCopies m st else []
  | .readReq =>
      -- `store_block` may copy what has been received behind the words of the reply
      ⟨rpcPktSize, replySize⟩ ::
        if st.Accepted pkt then
          [⟨len - replySize, netWord pkt (replyData + 18)⟩]
        else []

/-- The path behind a link. -/
def linkedPath : List UInt8 :=
  if LinkRelative m then st.nfsPath ++ ch '/' :: linkTarget m else linkTarget m

/-- Every copy of the parser fits its destination, and a link leads to the path it
stands for, with its NUL in the buffer. -/
structure Parses (stack : Memory UInt8) (p : RxPacket) : Prop where
  fits : ∀ c ∈ replyCopies (rpcPkt stack p) st p.mem p.len, c.count ≤ c.room
  linked : st.nfsState = .readlinkReq → ∀ st',
    st.nfsReadlinkReply (rpcPkt stack p) = some st' →
      st'.nfsPath = cstr (linkedPath (rpcPkt stack p) st) ∧
        st'.nfsPath.length < nfsPathSize

/-- The byte in front of the terminator of a relative link is a NUL, or the target
has one. -/
def LinkEnds : Prop :=
  linkLen m = 0 ∨ (0 : UInt8) ∈ linkTarget m ∨
    st.pathBuff (pathAt + (st.nfsPath.length + 1) + linkLen m) = 0

/-- The lengths that the parser for the state goes by are small enough. -/
structure Bounded (stack : Memory UInt8) (p : RxPacket) : Prop where
  packet : st.nfsState ≠ .readReq → p.len ≤ rpcPktSize
  data : st.nfsState = .readReq → st.Accepted p.mem →
    netWord p.mem (replyData + 18) ≤ p.len - replySize
  relative : st.nfsState = .readlinkReq → st.Accepted (rpcPkt stack p) →
    LinkRelative (rpcPkt stack p) →
      st.nfsPath.length + 1 + linkLen (rpcPkt stack p) + 2 ≤ nfsPathSize ∧
        LinkEnds (rpcPkt stack p) st
  absolute : st.nfsState = .readlinkReq → st.Accepted (rpcPkt stack p) →
    ¬ LinkRelative (rpcPkt stack p) → linkLen (rpcPkt stack p) + 1 ≤ nfsPathSize

/-! ## Copies -/

variable {m st}

/-- The copies fit if and only if the lengths are small enough. -/
theorem linkCopies_fit_iff :
    (∀ c ∈ linkCopies m st, c.count ≤ c.room) ↔
      if LinkRelative m then st.nfsPath.length + 1 + linkLen m + 2 ≤ nfsPathSize
      else linkLen m + 1 ≤ nfsPathSize := by
  unfold linkCopies
  split_ifs
  · simp only [List.forall_mem_cons, List.not_mem_nil, false_imp_iff, implies_true,
      and_true]
    omega
  · simp only [List.forall_mem_cons, List.not_mem_nil, false_imp_iff, implies_true,
      and_true]
    omega

/-! ## The path behind a link -/

theorem holds_stringAt (m : Memory UInt8) (p : ℕ) :
    Memory.Holds m p (stringAt m p) := by
  have hread := Memory.holds_read m p nfsPathSize
  rw [← List.takeWhile_append_dropWhile (p := (· ≠ (0 : UInt8)))
    (l := m.read p nfsPathSize)] at hread
  exact (Memory.holds_append.mp hread).1

theorem holds_append_store {m : Memory UInt8} {p q : ℕ} {xs : List UInt8}
    (h : Memory.Holds m p xs) (hq : q = p + xs.length) (c : UInt8) :
    Memory.Holds (m.store q c) p (xs ++ [c]) := by
  subst hq
  refine Memory.Holds.append (h.congr fun k _ hk => ?_) ?_
  · exact Memory.store_of_ne c (by omega)
  · rw [Memory.holds_singleton, Memory.store_same]

/-- The byte behind the target of a relative link. -/
def lastByte (m : Memory UInt8) (st : Nfs) : UInt8 :=
  if linkLen m = 0 then 0
  else st.pathBuff (pathAt + (st.nfsPath.length + 1) + linkLen m)

theorem linkEnds_iff :
    LinkEnds m st ↔ (0 : UInt8) ∈ linkTarget m ∨ lastByte m st = 0 := by
  unfold LinkEnds lastByte
  split_ifs with hzero
  · simp [hzero]
  · simp [hzero]

theorem linkTarget_length (m : Memory UInt8) : (linkTarget m).length = linkLen m :=
  Memory.read_length _ _ _

/-- `strcat`, `memcpy` and the terminator of a relative link. -/
theorem holds_relative {m : Memory UInt8} {p : ℕ} {old : List UInt8}
    (h : Memory.Holds m p old) (target : List UInt8) :
    let slash := p + old.length
    let last := if target.length = 0 then 0 else m (slash + 1 + target.length)
    Memory.Holds
      ((((m.store slash (ch '/')).store (slash + 1) 0).copyIn (slash + 1)
        target).store (slash + 1 + target.length + 1) 0) p
      (old ++ [ch '/'] ++ target ++ [last] ++ [0]) := by
  intro slash last
  have hslash := holds_append_store h rfl (ch '/')
  have hplace : slash + 1 = p + (old ++ [ch '/']).length := by
    rw [List.length_append]
    rfl
  have hcopied : Memory.Holds (((m.store slash (ch '/')).store (slash + 1) 0).copyIn
      (slash + 1) target) p (old ++ [ch '/'] ++ target) := by
    rw [hplace]
    refine Memory.Holds.append_copyIn (hslash.congr fun k _ hk => ?_) target
    exact Memory.store_of_ne 0 (by omega)
  have hbehind : slash + 1 + target.length =
      p + (old ++ [ch '/'] ++ target).length := by
    rw [List.length_append, hplace, Nat.add_assoc]
  refine holds_append_store (hcopied.append (Memory.holds_singleton.mpr ?_)) ?_ 0
  · rw [← hbehind, Memory.copyIn_of_ge le_rfl]
    change _ = if target.length = 0 then 0 else m (slash + 1 + target.length)
    split_ifs with hzero
    · rw [hzero, Nat.add_zero, Memory.store_same]
    · rw [Memory.store_of_ne 0 (by omega), Memory.store_of_ne _ (by omega)]
  · rw [List.length_append, List.length_singleton, ← Nat.add_assoc, ← hbehind]

/-- The path buffer behind a relative link. -/
def relativeBuff (m : Memory UInt8) (st : Nfs) : Memory UInt8 :=
  let slash := pathAt + st.nfsPath.length
  (((st.pathBuff.store slash (ch '/')).store (slash + 1) 0).copyIn (slash + 1)
    (linkTarget m)).store (slash + 1 + linkLen m + 1) 0

/-- The path buffer behind an absolute link. -/
def absoluteBuff (m : Memory UInt8) (st : Nfs) : Memory UInt8 :=
  (st.pathBuff.copyIn pathAt (linkTarget m)).store (pathAt + linkLen m) 0

theorem nfsReadlinkReply_of_accepted (h : st.Accepted m) :
    st.nfsReadlinkReply m = some { st with
      pathBuff := if LinkRelative m then relativeBuff m st else absoluteBuff m st } := by
  rw [nfsReadlinkReply, if_neg (not_not_intro h.1), if_neg h.2]
  by_cases hrel : LinkRelative m
  · rw [if_pos hrel]
    exact if_pos hrel
  · rw [if_neg hrel]
    exact if_neg hrel

/-- The path that a relative link leaves. -/
theorem stringAt_relativeBuff (m : Memory UInt8) {st : Nfs}
    (hfit : st.nfsPath.length + 1 + linkLen m + 2 ≤ nfsPathSize) :
    stringAt (relativeBuff m st) pathAt =
      cstr (st.nfsPath ++ [ch '/'] ++ linkTarget m ++ [lastByte m st]) := by
  have hholds : Memory.Holds (relativeBuff m st) pathAt
      (st.nfsPath ++ [ch '/'] ++ linkTarget m ++ [lastByte m st] ++ [0]) := by
    have hpath : stringAt st.pathBuff pathAt = st.nfsPath := rfl
    have hold := holds_stringAt st.pathBuff pathAt
    rw [hpath] at hold
    have hlinked := holds_relative hold (linkTarget m)
    rw [linkTarget_length] at hlinked
    rw [lastByte, ← Nat.add_assoc pathAt]
    exact hlinked
  refine stringAt_of_holds_nul hholds ?_
  simp only [List.length_append, List.length_singleton, linkTarget_length]
  omega

/-- The path that an absolute link leaves. -/
theorem stringAt_absoluteBuff {m : Memory UInt8} (st : Nfs)
    (hfit : linkLen m + 1 ≤ nfsPathSize) :
    stringAt (absoluteBuff m st) pathAt = cstr (linkTarget m) := by
  have hbehind : pathAt + linkLen m = pathAt + (linkTarget m).length := by
    rw [linkTarget_length]
  refine stringAt_of_holds_nul
    (holds_append_store (Memory.holds_copyIn _ _ _) hbehind 0) ?_
  rw [linkTarget_length]
  exact hfit

theorem accepted_of_reply {st' : Nfs} (h : st.nfsReadlinkReply m = some st') :
    st.Accepted m := by
  rw [nfsReadlinkReply] at h
  split_ifs at h with hid hbad
  all_goals exact ⟨not_not.mp hid, hbad⟩

theorem cstr_length_le (s : List UInt8) : (cstr s).length ≤ s.length :=
  (List.takeWhile_prefix _).length_le

/-- A byte behind a string changes it unless the string has ended. -/
theorem cstr_append_iff {s : List UInt8} {c : UInt8} :
    cstr (s ++ [c]) = cstr s ↔ (0 : UInt8) ∈ s ∨ c = 0 := by
  by_cases hs : (0 : UInt8) ∈ s
  · refine iff_of_true ?_ (Or.inl hs)
    obtain ⟨front, back, rfl⟩ := List.append_of_mem hs
    rw [List.append_assoc, List.cons_append, cstr_append_nul, cstr_append_nul]
  · by_cases hc : c = 0
    · subst hc
      exact iff_of_true (cstr_append_nul s []) (Or.inr rfl)
    · refine iff_of_false (fun h => ?_) (not_or.mpr ⟨hs, hc⟩)
      have hboth : (0 : UInt8) ∉ s ++ [c] := by
        rw [List.mem_append, List.mem_singleton, not_or]
        exact ⟨hs, fun hzero => hc hzero.symm⟩
      rw [cstr_of_notMem hboth, cstr_of_notMem hs] at h
      exact absurd (congrArg List.length h) (by simp)

/-- A relative link leads to the path it stands for if and only if its target
ends. -/
theorem relative_linked_iff (hrel : LinkRelative m)
    (hfit : st.nfsPath.length + 1 + linkLen m + 2 ≤ nfsPathSize) :
    stringAt (relativeBuff m st) pathAt = cstr (linkedPath m st) ↔ LinkEnds m st := by
  have hzero : (0 : UInt8) ∈ st.nfsPath ++ [ch '/'] ++ linkTarget m ↔
      (0 : UInt8) ∈ linkTarget m := by
    have hold : (0 : UInt8) ∉ st.nfsPath := zero_notMem_cstr _
    have hslash : (0 : UInt8) ∉ [ch '/'] := by decide
    simp only [List.mem_append, hold, hslash, false_or]
  have hlinked : linkedPath m st = st.nfsPath ++ [ch '/'] ++ linkTarget m := by
    rw [linkedPath, if_pos hrel, List.append_assoc, List.singleton_append]
  rw [stringAt_relativeBuff m hfit, hlinked, cstr_append_iff, hzero, linkEnds_iff]

/-! ## All parsers -/

/-- The copies of each parser fit if and only if the packet, the data of a read reply
and the target of a link are short enough. -/
theorem replyCopies_fit_iff {pkt : Memory UInt8} {len : ℕ} :
    (∀ c ∈ replyCopies m st pkt len, c.count ≤ c.room) ↔
      (st.nfsState ≠ .readReq → len ≤ rpcPktSize) ∧
      (st.nfsState = .readReq → st.Accepted pkt →
        netWord pkt (replyData + 18) ≤ len - replySize) ∧
      (st.nfsState = .readlinkReq → st.Accepted m →
        ∀ c ∈ linkCopies m st, c.count ≤ c.room) := by
  have hreply : replySize ≤ rpcPktSize := by decide
  cases hstate : st.nfsState <;> simp only [replyCopies, hstate]
  case readReq =>
    by_cases haccepted : st.Accepted pkt <;> simp [haccepted, hreply]
  case readlinkReq =>
    by_cases haccepted : st.Accepted m <;> simp [haccepted]
  all_goals
    try split_ifs
    all_goals simp

/-- A parser copies no more than its destinations hold, and a link leads to the path
it stands for, if and only if the lengths it goes by are small enough and a relative
target ends. -/
theorem parses_iff_bounded (st : Nfs) (stack : Memory UInt8) (p : RxPacket) :
    Parses st stack p ↔ Bounded st stack p := by
  constructor
  · rintro ⟨hfits, hlinked⟩
    obtain ⟨hpacket, hdata, hlink⟩ := replyCopies_fit_iff.mp hfits
    refine ⟨hpacket, hdata, fun hstate haccepted hrel => ?_,
      fun hstate haccepted habs => ?_⟩
    · have hfit := linkCopies_fit_iff.mp (hlink hstate haccepted)
      rw [if_pos hrel] at hfit
      have hpath := (hlinked hstate _ (nfsReadlinkReply_of_accepted haccepted)).1
      rw [if_pos hrel] at hpath
      exact ⟨hfit, (relative_linked_iff hrel hfit).mp hpath⟩
    · have hfit := linkCopies_fit_iff.mp (hlink hstate haccepted)
      rwa [if_neg habs] at hfit
  · intro h
    refine ⟨replyCopies_fit_iff.mpr ⟨h.packet, h.data, fun hstate haccepted => ?_⟩,
      fun hstate st' hreply => ?_⟩
    · refine linkCopies_fit_iff.mpr ?_
      split_ifs with hrel
      · exact (h.relative hstate haccepted hrel).1
      · exact h.absolute hstate haccepted hrel
    · have haccepted := accepted_of_reply hreply
      rw [nfsReadlinkReply_of_accepted haccepted] at hreply
      obtain rfl := Option.some.inj hreply
      by_cases hrel : LinkRelative (rpcPkt stack p)
      · obtain ⟨hfit, hends⟩ := h.relative hstate haccepted hrel
        rw [if_pos hrel]
        refine ⟨(relative_linked_iff hrel hfit).mpr hends, ?_⟩
        change (stringAt (relativeBuff _ st) pathAt).length < nfsPathSize
        rw [stringAt_relativeBuff _ hfit]
        refine (cstr_length_le _).trans_lt ?_
        simp only [List.length_append, List.length_singleton, linkTarget_length]
        omega
      · have hfit := h.absolute hstate haccepted hrel
        rw [if_neg hrel, linkedPath, if_neg hrel]
        refine ⟨stringAt_absoluteBuff st hfit, ?_⟩
        change (stringAt (absoluteBuff _ st) pathAt).length < nfsPathSize
        rw [stringAt_absoluteBuff st hfit]
        refine (cstr_length_le _).trans_lt ?_
        rw [linkTarget_length]
        exact hfit

/-- A client that waits for the target of a link, with the name of a file behind the
directory in its path buffer. -/
def readingLink : Nfs where
  mem := fun _ => 0
  loadAddr := 0
  netBootFileXferSize := 0
  netOurIP := 0
  bootFile := []
  fsMounted := true
  rpcId := 0
  nfsOffset := 0
  nfsLen := nfsReadSize
  dirfh := []
  filefh := []
  nfsDownloadState := .netloopFail
  nfsSrvMountPort := 0
  nfsSrvNfsPort := 0
  nfsOurPort := 1000
  nfsState := .readlinkReq
  pathBuff := Memory.copyIn (fun _ => 0) pathAt (text "/nfs" ++ 0 :: text "uImage")
  filenameAt := pathAt + 5
  netState := .netloopContinue

/-- The reply that the link leads to `k`. -/
def linkToK : RxPacket where
  mem := Memory.store (Memory.store (fun _ => 0) 31 1) 32 (ch 'k')
  len := 36
  dest := 1000
  src := 2049
  etSrc := []

/-- The path becomes `/nfs/kI`. -/
theorem linkToK_not_parses : ¬ Parses readingLink (fun _ => 0) linkToK := by
  intro h
  have haccepted : readingLink.Accepted (rpcPkt (fun _ => 0) linkToK) := by
    decide
  have hrel : LinkRelative (rpcPkt (fun _ => 0) linkToK) := by decide
  have hpath := (h.linked rfl _ (nfsReadlinkReply_of_accepted haccepted)).1
  rw [if_pos hrel] at hpath
  have hends := (relative_linked_iff hrel (by decide +kernel)).mp hpath
  rcases hends with hzero | hzero | hzero
  · exact absurd hzero (by decide)
  · exact absurd hzero (by decide)
  · exact absurd hzero (by decide +kernel)

end Nfs

end TateFirmware.Net
