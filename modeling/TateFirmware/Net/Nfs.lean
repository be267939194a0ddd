import TateFirmware.Net.NetLoop

/-!
# The NFS client

The state machine of `net/nfs.c`.  A request is kept as what it asks for; its
bytes on the wire are left out.  Replies are read word by word as the code
does, from a copy on the stack that holds the packet and, behind it, whatever
the stack held, or from the receive buffer itself.
-/

namespace TateFirmware.Net

open LibGeneric Support

/-! ## Constants -/

/-- `SUNRPC_PORT`. -/
def sunrpcPort : ℕ := 111

/-- `PROG_NFS`. -/
def progNfs : ℕ := 100003

/-- `PROG_MOUNT`. -/
def progMount : ℕ := 100005

/-- `NFS_FHSIZE`. -/
def nfsFhsize : ℕ := 32

/-- `NFS_READ_SIZE`. -/
def nfsReadSize : ℕ := 1024

/-- `NFSERR_ISDIR`. -/
def nfserrIsdir : ℕ := 21

/-- `NFSERR_INVAL`. -/
def nfserrInval : ℕ := 22

/-- `sizeof(nfs_path_buff)`. -/
def nfsPathSize : ℕ := 2048

/-- The words of a reply: `id`, `rstatus`, `verifier`, `astatus` and `data`. -/
def replyId : ℕ := 0

def replyRstatus : ℕ := 2

def replyVerifier : ℕ := 3

def replyAstatus : ℕ := 5

def replyData : ℕ := 6

/-- `sizeof(rpc_pkt.u.reply)`. -/
def replySize : ℕ := 100

/-- `ntohl` of word `i`. -/
def netWord (m : Memory UInt8) (i : ℕ) : ℕ :=
  (m (4 * i)).toNat * 2 ^ 24 + (m (4 * i + 1)).toNat * 2 ^ 16 +
    (m (4 * i + 2)).toNat * 2 ^ 8 + (m (4 * i + 3)).toNat

/-- A 32-bit pattern as an `int`. -/
def toInt32 (n : ℕ) : ℤ := if n < 2 ^ 31 then n else n - 2 ^ 32

/-! ## The state -/

/-- `STATE_PRCLOOKUP_PROG_MOUNT_REQ` and its siblings. -/
inductive NfsState where
  | prclookupProgMountReq
  | prclookupProgNfsReq
  | mountReq
  | umountReq
  | lookupReq
  | readReq
  | readlinkReq
deriving DecidableEq, Repr

/-- What a request asks for. -/
inductive NfsRequest where
  /-- `PORTMAP_GETPORT`. -/
  | getport (prog vers : ℕ)
  /-- `MOUNT_ADDENTRY`. -/
  | mount (path : List UInt8)
  /-- `MOUNT_UMOUNTALL`. -/
  | umountall
  /-- `NFS_LOOKUP`. -/
  | lookup (dirfh name : List UInt8)
  /-- `NFS_READ`. -/
  | read (filefh : List UInt8) (offset readlen : ℕ)
  /-- `NFS_READLINK`. -/
  | readlink (filefh : List UInt8)
deriving DecidableEq, Repr

/-- A request on its way to a port of the server. -/
structure NfsCall where
  id : ℕ
  sport : ℕ
  request : NfsRequest
deriving DecidableEq, Repr

/-- The globals of the client, and the memory it loads into. -/
structure Nfs where
  mem : Memory UInt8
  loadAddr : ℕ
  netBootFileXferSize : ℕ
  netOurIP : ℕ
  bootFile : List UInt8
  fsMounted : Bool
  rpcId : ℕ
  nfsOffset : ℕ
  nfsLen : ℕ
  dirfh : List UInt8
  filefh : List UInt8
  nfsDownloadState : NetState
  nfsSrvMountPort : ℕ
  nfsSrvNfsPort : ℕ
  nfsOurPort : ℕ
  nfsState : NfsState
  /-- The memory around `nfs_path`, from two bytes before it on. -/
  pathBuff : Memory UInt8
  /-- `nfs_filename`, as an offset in that memory. -/
  filenameAt : ℕ
  netState : NetState

/-! ## Paths -/

/-- Where `nfs_path` is in the memory around it. -/
def pathAt : ℕ := 2

/-- The string at an offset. -/
def stringAt (m : Memory UInt8) (p : ℕ) : List UInt8 :=
  cstr (m.read p nfsPathSize)

/-- `basename(nfs_path)`, which is one byte before the path where it has no
slash. -/
def basename (m : Memory UInt8) : ℕ :=
  match (stringAt m pathAt).reverse.findIdx? (· = ch '/') with
  | some j => pathAt + ((stringAt m pathAt).length - j)
  | none => pathAt - 1

/-- `dirname(nfs_path)`. -/
def dirname (m : Memory UInt8) : Memory UInt8 := m.store (basename m - 1) 0

/-- `strcpy` into the path buffer. -/
def strcpyPath (m : Memory UInt8) (s : List UInt8) : Memory UInt8 :=
  m.copyIn pathAt (s ++ [0])

namespace Nfs

/-- `nfs_path`. -/
def nfsPath (st : Nfs) : List UInt8 := stringAt st.pathBuff pathAt

/-- `nfs_filename`. -/
def nfsFilename (st : Nfs) : List UInt8 := stringAt st.pathBuff st.filenameAt

/-! ## Requests -/

/-- `rpc_req`. -/
def rpcReq (sport : ℕ) (request : NfsRequest) (st : Nfs) :
    Nfs × List NfsCall :=
  let id := (st.rpcId + 1) % 2 ^ 32
  ({ st with rpcId := id }, [⟨id, sport, request⟩])

/-- `NfsSend`. -/
def nfsSend (st : Nfs) : Nfs × List NfsCall :=
  match st.nfsState with
  | .prclookupProgMountReq => st.rpcReq sunrpcPort (.getport progMount 1)
  | .prclookupProgNfsReq => st.rpcReq sunrpcPort (.getport progNfs 2)
  | .mountReq => st.rpcReq st.nfsSrvMountPort (.mount st.nfsPath)
  | .umountReq =>
      if st.nfsSrvMountPort = 2 ^ 32 - 1 ∨ st.fsMounted = false then (st, [])
      else st.rpcReq st.nfsSrvMountPort .umountall
  | .lookupReq =>
      st.rpcReq st.nfsSrvNfsPort (.lookup st.dirfh st.nfsFilename)
  | .readReq =>
      st.rpcReq st.nfsSrvNfsPort (.read st.filefh st.nfsOffset st.nfsLen)
  | .readlinkReq => st.rpcReq st.nfsSrvNfsPort (.readlink st.filefh)

/-- `NfsState` is set and `NfsSend` called. -/
def goto (s : NfsState) (st : Nfs) : Nfs × List NfsCall :=
  { st with nfsState := s }.nfsSend

/-- `NetState` is set. -/
def finish (s : NetState) (st : Nfs) : Nfs × List NfsCall :=
  ({ st with netState := s }, [])

/-! ## Replies -/

/-- `store_block`. -/
def storeBlock (src : List UInt8) (offset : ℕ) (st : Nfs) : Nfs :=
  let newsize := (offset + src.length) % 2 ^ 32
  { st with
    mem := st.mem.copyWrap ((st.loadAddr + offset) % 2 ^ 32) src
    netBootFileXferSize :=
      if st.netBootFileXferSize < newsize then newsize
      else st.netBootFileXferSize }

/-- `rpc_pkt` behind `memcpy(&rpc_pkt, pkt, len)`. -/
def rpcPkt (stack : Memory UInt8) (p : RxPacket) : Memory UInt8 :=
  stack.copyIn 0 (p.mem.read 0 p.len)

/-- `rstatus`, `verifier` or `astatus` is set. -/
def badHeader (m : Memory UInt8) : Prop :=
  netWord m replyRstatus ≠ 0 ∨ netWord m replyVerifier ≠ 0 ∨
    netWord m replyAstatus ≠ 0

instance (m : Memory UInt8) : Decidable (badHeader m) :=
  inferInstanceAs (Decidable (_ ∨ _))

/-- `rpc_lookup_reply`; its result is not used. -/
def rpcLookupReply (prog : ℕ) (m : Memory UInt8) (st : Nfs) : Nfs :=
  if netWord m replyId ≠ st.rpcId then st
  else if badHeader m then st
  else if prog = progMount then
    { st with nfsSrvMountPort := netWord m replyData }
  else if prog = progNfs then { st with nfsSrvNfsPort := netWord m replyData }
  else st

/-- `nfs_mount_reply`, where `none` is `-1`. -/
def nfsMountReply (m : Memory UInt8) (st : Nfs) : Option Nfs :=
  if netWord m replyId ≠ st.rpcId then none
  else if badHeader m ∨ netWord m replyData ≠ 0 then none
  else
    some { st with
      fsMounted := true
      dirfh := m.read (4 * (replyData + 1)) nfsFhsize }

/-- `nfs_umountall_reply`, where `none` is `-1`. -/
def nfsUmountallReply (m : Memory UInt8) (st : Nfs) : Option Nfs :=
  if netWord m replyId ≠ st.rpcId then none
  else if badHeader m then none
  else some { st with fsMounted := false, dirfh := List.replicate nfsFhsize 0 }

/-- `nfs_lookup_reply`, where `none` is `-1`. -/
def nfsLookupReply (m : Memory UInt8) (st : Nfs) : Option Nfs :=
  if netWord m replyId ≠ st.rpcId then none
  else if badHeader m ∨ netWord m replyData ≠ 0 then none
  else some { st with filefh := m.read (4 * (replyData + 1)) nfsFhsize }

/-- `nfs_readlink_reply`, where `none` is `-1`. -/
def nfsReadlinkReply (m : Memory UInt8) (st : Nfs) : Option Nfs :=
  if netWord m replyId ≠ st.rpcId then none
  else if badHeader m ∨ netWord m replyData ≠ 0 then none
  else
    let rlen := netWord m (replyData + 1)
    let target := m.read (4 * (replyData + 2)) rlen
    if m (4 * (replyData + 2)) ≠ ch '/' then
      let slash := pathAt + st.nfsPath.length
      -- the terminator goes one byte too far
      some { st with
        pathBuff := (((st.pathBuff.store slash (ch '/')).store (slash + 1)
          0).copyIn (slash + 1) target).store (slash + 1 + rlen + 1) 0 }
    else
      some { st with
        pathBuff := (st.pathBuff.copyIn pathAt target).store (pathAt + rlen) 0 }

/-- `nfs_read_reply`. -/
def nfsReadReply (m : Memory UInt8) (st : Nfs) : ℤ × Nfs :=
  if netWord m replyId ≠ st.rpcId then (-1, st)
  else if badHeader m ∨ netWord m replyData ≠ 0 then
    if netWord m replyRstatus ≠ 0 then (-9999, st)
    else if netWord m replyAstatus ≠ 0 then (-9999, st)
    else (toInt32 ((2 ^ 32 - netWord m replyData) % 2 ^ 32), st)
  else
    let rlen := netWord m (replyData + 18)
    (toInt32 rlen, st.storeBlock (m.read replySize rlen) st.nfsOffset)

/-! ## The handler -/

/-- `NfsTimeout`. -/
def nfsTimeout (st : Nfs) : Nfs := { st with netState := .netloopFail }

/-- The case `STATE_READ_REQ`, behind `nfs_read_reply`. -/
def readReply (rlen : ℤ) (st : Nfs) : Nfs × List NfsCall :=
  if rlen > 0 then
    { st with
      nfsOffset := (st.nfsOffset + rlen.toNat) % 2 ^ 32 }.goto .readReq
  else if rlen = -nfserrIsdir ∨ rlen = -nfserrInval then
    st.goto .readlinkReq
  else
    { st with
      nfsDownloadState := if rlen = 0 then .netloopSuccess
        else st.nfsDownloadState }.goto .umountReq

/-- The switch of `NfsHandler`; `m` is what the parsers other than
`nfs_read_reply` have copied, and `pkt` is the packet itself. -/
def dispatch (m pkt : Memory UInt8) (st : Nfs) : Nfs × List NfsCall :=
  match st.nfsState with
  | .prclookupProgMountReq =>
      (st.rpcLookupReply progMount m).goto .prclookupProgNfsReq
  | .prclookupProgNfsReq => (st.rpcLookupReply progNfs m).goto .mountReq
  | .mountReq =>
      match st.nfsMountReply m with
      | none => st.goto .umountReq
      | some st => st.goto .lookupReq
  | .umountReq =>
      match st.nfsUmountallReply m with
      | none => st.finish .netloopFail
      | some st => st.finish st.nfsDownloadState
  | .lookupReq =>
      match st.nfsLookupReply m with
      | none => st.goto .umountReq
      | some st =>
          { st with nfsOffset := 0, nfsLen := nfsReadSize }.goto .readReq
  | .readlinkReq =>
      match st.nfsReadlinkReply m with
      | none => st.goto .umountReq
      | some st =>
          { st with
            filenameAt := basename st.pathBuff
            pathBuff := dirname st.pathBuff }.goto .mountReq
  | .readReq => (st.nfsReadReply pkt).2.readReply (st.nfsReadReply pkt).1

/-- `NfsHandler`; `stack` is what the parsers find on the stack. -/
def nfsHandler (stack : Memory UInt8) (p : RxPacket) (st : Nfs) :
    Nfs × List NfsCall :=
  if p.dest ≠ st.nfsOurPort then (st, [])
  else st.dispatch (rpcPkt stack p) p.mem

/-- `NfsStart`. -/
def nfsStart (st : Nfs) : Nfs × List NfsCall :=
  let path :=
    if peek st.bootFile = 0 then text "/nfsroot/" ++ imageName st.netOurIP
    else
      let name := cstr st.bootFile
      if ch ':' ∈ name then (name.dropWhile (· ≠ ch ':')).tail else name
  let buff := strcpyPath st.pathBuff path
  { st with
    nfsDownloadState := .netloopFail
    filenameAt := basename buff
    pathBuff := dirname buff
    nfsOurPort := 1000 }.goto .prclookupProgMountReq

/-- `NetLoop` starts the protocol. -/
def netLoopStart (st : Nfs) : Nfs × List NfsCall :=
  let (st, calls) := { st with netState := .netloopContinue }.nfsStart
  ({ st with netBootFileXferSize := 0 }, calls)

end Nfs

end TateFirmware.Net
