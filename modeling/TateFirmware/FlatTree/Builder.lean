import TateFirmware.LibGeneric.CString
import TateFirmware.Support.NulString
import TateFirmware.Support.Records

/-!
# Building a flat device tree

`common/ft_build.c` builds a device tree in one buffer.  The structure, a row of tags,
grows up from `p_begin`, and the names of the properties, each of them once, grow down
from the end of the buffer.  `ft_end_tree` moves the names up to the structure and walks
over the structure to set the offsets of the names right.

The context is kept together with the memory that its pointers point into.  The sums of
addresses that are compared with the end of the free part wrap round at 32 bits.
`ft_merge_blob` copies from a tree that stands apart from the one that is built.
-/

namespace TateFirmware.FlatTree

open LibGeneric Support

/-! ## Tags and the header -/

/-- `OF_DT_HEADER`. -/
def ofDtHeader : ℕ := 0xd00dfeed

/-- `OF_DT_BEGIN_NODE`. -/
def ofDtBeginNode : ℕ := 0x1

/-- `OF_DT_END_NODE`. -/
def ofDtEndNode : ℕ := 0x2

/-- `OF_DT_PROP`. -/
def ofDtProp : ℕ := 0x3

/-- `OF_DT_NOP`. -/
def ofDtNop : ℕ := 0x4

/-- `OF_DT_END`. -/
def ofDtEnd : ℕ := 0x9

/-- `sizeof(struct boot_param_header)`. -/
def headerSize : ℕ := 36

/-- Where `totalsize` is in the header. -/
def totalsizeAt : ℕ := 4

/-- Where `off_dt_struct` is in the header. -/
def offDtStructAt : ℕ := 8

/-- Where `off_dt_strings` is in the header. -/
def offDtStringsAt : ℕ := 12

/-- Where `off_mem_rsvmap` is in the header. -/
def offMemRsvmapAt : ℕ := 16

/-- Where `version` is in the header. -/
def versionAt : ℕ := 20

/-- Where `last_comp_version` is in the header. -/
def lastCompVersionAt : ℕ := 24

/-- `_ALIGN(addr, size)`, for sizes that are powers of two. -/
def align (addr size : ℕ) : ℕ := (addr + (size - 1)) % 2 ^ 32 / size * size

/-- Store the 32-bit word `cpu_to_be32(v)`. -/
def putBe32 (mem : Memory UInt8) (a v : ℕ) : Memory UInt8 := mem.copyIn a (beBytes v)

/-- Store the 64-bit word `cpu_to_be64(v)`. -/
def putBe64 (mem : Memory UInt8) (a v : ℕ) : Memory UInt8 :=
  mem.copyIn a (beBytes (v / 2 ^ 32) ++ beBytes v)

/-! ## The context -/

/-- `struct ft_cxt`, and the memory. -/
structure FtCxt where
  mem : Memory UInt8
  bph : ℕ
  maxSize : ℕ
  overflow : Bool
  p : ℕ
  pstr : ℕ
  pres : ℕ
  pBegin : ℕ
  pstrBegin : ℕ
  presBegin : ℕ
  pAnchor : ℕ
  structSize : ℕ
  stringsSize : ℕ
  resSize : ℕ

/-- `ft_put_word`. -/
def ftPutWord (cxt : FtCxt) (v : ℕ) : FtCxt :=
  if cxt.overflow then cxt
  else if cxt.pstr < (cxt.p + 4) % 2 ^ 32 then { cxt with overflow := true }
  else { cxt with mem := putBe32 cxt.mem cxt.p v, p := cxt.p + 4 }

/-- `ft_put_bin`, with the bytes of the value. -/
def ftPutBin (cxt : FtCxt) (data : List UInt8) : FtCxt :=
  if cxt.overflow then cxt
  else
    let sz := data.length
    let p := align (cxt.p + sz) 4
    if cxt.pstr < p then { cxt with overflow := true }
    else
      let mem := cxt.mem.copyIn cxt.p data
      let mem := if sz % 4 ≠ 0 then mem.fill (cxt.p + sz) (4 - sz % 4) 0 else mem
      { cxt with mem := mem, p := p }

/-- `ft_begin_node`. -/
def ftBeginNode (cxt : FtCxt) (name : List UInt8) : FtCxt :=
  ftPutBin (ftPutWord cxt ofDtBeginNode) (name ++ [0])

/-- `ft_end_node`. -/
def ftEndNode (cxt : FtCxt) : FtCxt := ftPutWord cxt ofDtEndNode

/-- `ft_nop`. -/
def ftNop (cxt : FtCxt) : FtCxt := ftPutWord cxt ofDtNop

/-- One round of the loop of `lookup_string`, with the name at `p`. -/
def lookupRound (cxt : FtCxt) (name : List UInt8) (p fuel : ℕ) :
    Option (Option ℕ ⊕ ℕ) :=
  if p < cxt.pstrBegin then
    (cxt.mem.strAt p fuel).map fun s =>
      if s = name then .inl (some (p - cxt.pBegin)) else .inr (p + (s.length + 1))
  else some (.inl none)

/-- `lookup_string`, with `none` for `-1`. -/
def lookupString (cxt : FtCxt) (name : List UInt8) (fuel : ℕ) : Option (Option ℕ) :=
  fuelLoop (lookupRound cxt name) fuel cxt.pstr

/-- The last four steps of `ft_prop`. -/
def putProp (cxt : FtCxt) (off : ℕ) (data : List UInt8) : FtCxt :=
  ftPutBin (ftPutWord (ftPutWord (ftPutWord cxt ofDtProp) data.length) off) data

/-- `ft_prop` behind its call of `lookup_string`. -/
def ftPropAt (cxt : FtCxt) (name data : List UInt8) : Option ℕ → FtCxt
  | some off => putProp cxt off data
  | none =>
      let len := name.length + 1
      if cxt.pstr < (cxt.p + 12 + data.length + len) % 2 ^ 32 then
        { cxt with overflow := true }
      else
        let pstr := cxt.pstr - len
        let mem := cxt.mem.copyIn pstr (name ++ [0])
        putProp { cxt with mem := mem, pstr := pstr } (pstr - cxt.pBegin) data

/-- `ft_prop`, with the bytes of the value. -/
def ftProp (cxt : FtCxt) (name data : List UInt8) (fuel : ℕ) : Option FtCxt :=
  if cxt.overflow then some cxt
  else (lookupString cxt name fuel).map (ftPropAt cxt name data)

/-! ## The start -/

/-- `ft_begin`. -/
def ftBegin (mem : Memory UInt8) (blob maxSize : ℕ) : FtCxt :=
  let mem := mem.fill blob headerSize 0
  let mem := putBe32 mem blob ofDtHeader
  let mem := putBe32 mem (blob + versionAt) 0x10
  let mem := putBe32 mem (blob + lastCompVersionAt) 0x10
  let presBegin := align (blob + headerSize) 8
  let mem := putBe32 mem (blob + offMemRsvmapAt) (presBegin - blob)
  let mem := mem.fill presBegin 16 0
  { mem := mem, bph := blob, maxSize := maxSize, overflow := false,
    p := 0, pstr := 0, pres := presBegin, pBegin := 0, pstrBegin := 0,
    presBegin := presBegin, pAnchor := presBegin + 16,
    structSize := 0, stringsSize := 0, resSize := 0 }

/-- `ft_add_rsvmap`. -/
def ftAddRsvmap (cxt : FtCxt) (physaddr size : ℕ) : FtCxt :=
  let mem := putBe64 cxt.mem cxt.pres physaddr
  let mem := putBe64 mem (cxt.pres + 8) size
  let pres := cxt.pres + 16
  let mem := mem.fill pres 16 0
  { cxt with mem := mem, pres := pres, resSize := pres + 16 - cxt.presBegin,
             pAnchor := pres + 16 }

/-- `ft_begin_tree`. -/
def ftBeginTree (cxt : FtCxt) : FtCxt :=
  { cxt with pBegin := cxt.pAnchor, pstrBegin := cxt.bph + cxt.maxSize,
             p := cxt.pAnchor, pstr := cxt.bph + cxt.maxSize }

/-- The context in which the tree is begun, after areas have been reserved. -/
def ftStart (mem : Memory UInt8) (blob maxSize : ℕ) (areas : List (ℕ × ℕ)) : FtCxt :=
  ftBeginTree ((areas.foldl (fun cxt area => ftAddRsvmap cxt area.1 area.2)
    (ftBegin mem blob maxSize)))

/-! ## Calls and merged trees -/

/-- A call that puts something into the tree. -/
inductive FtCall where
  | beginNode (name : List UInt8)
  | prop (name data : List UInt8)
  | endNode
  | nop
deriving DecidableEq

def ftCall (cxt : FtCxt) : FtCall → ℕ → Option FtCxt
  | .beginNode name, _ => some (ftBeginNode cxt name)
  | .prop name data, fuel => ftProp cxt name data fuel
  | .endNode, _ => some (ftEndNode cxt)
  | .nop, _ => some (ftNop cxt)

/-- The word in front of `p` is the tag of the end of a node. -/
def atNodeEnd (cxt : FtCxt) : Bool := cxt.mem.beWord (cxt.p - 4) = ofDtEndNode

/-- `ft_backtrack_node`. -/
def ftBacktrackNode (cxt : FtCxt) : FtCxt :=
  if atNodeEnd cxt then { cxt with p := cxt.p - 4 } else cxt

/-- The loop of `ft_merge_blob` stands at `p`, at `depth`. -/
structure MergeAt where
  p : ℕ
  depth : ℤ

/-- One round of the loop of `ft_merge_blob` over the tree at `src`: the call it makes,
and where it goes on. -/
def mergeStep (src : Memory UInt8) (s : MergeAt) (fuel : ℕ) :
    Option (Option FtCall × Option MergeAt) :=
  let tag := src.beWord s.p
  let p := s.p + 4
  if tag = ofDtEnd then some (none, none)
  else if tag = ofDtBeginNode then
    (src.strAt p fuel).map fun name =>
      (if 0 < s.depth then some (.beginNode name) else none,
        some ⟨align (p + (name.length + 1)) 4, s.depth + 1⟩)
  else if tag = ofDtEndNode then
    some (some .endNode, if s.depth - 1 = 0 then none else some ⟨p, s.depth - 1⟩)
  else if tag = ofDtNop then some (none, some ⟨p, s.depth⟩)
  else if tag ≠ ofDtProp then some (none, none)
  else
    let sz := src.beWord p
    let name := src.beWord offDtStringsAt + src.beWord (p + 4)
    let t := p + 8
    (src.strAt name fuel).map fun name =>
      (some (.prop name (src.read t sz)), some ⟨align (t + sz) 4, s.depth⟩)

/-- A call, if there is one. -/
def maybeCall (cxt : FtCxt) : Option FtCall → ℕ → Option FtCxt
  | some c, fuel => ftCall cxt c fuel
  | none, _ => some cxt

/-- The loop goes on with the context, or ends with it. -/
def goOn {α : Type*} (a : α) : Option MergeAt → α ⊕ (α × MergeAt)
  | some s => .inr (a, s)
  | none => .inl a

/-- One round of the loop of `ft_merge_blob`. -/
def mergeRound (src : Memory UInt8) (s : FtCxt × MergeAt) (fuel : ℕ) :
    Option (FtCxt ⊕ (FtCxt × MergeAt)) :=
  (mergeStep src s.2 fuel).bind fun step =>
    (maybeCall s.1 step.1 fuel).map fun cxt => goOn cxt step.2

/-- `ft_merge_blob`, with the tree at address 0 of `src`. -/
def ftMergeBlob (cxt : FtCxt) (src : Memory UInt8) (fuel : ℕ) : Option FtCxt :=
  if atNodeEnd cxt then
    fuelLoop (mergeRound src) fuel
      ({ cxt with p := cxt.p - 4 }, ⟨src.beWord offDtStructAt, 0⟩)
  else some cxt

/-- What is done between `ft_begin_tree` and `ft_end_tree`. -/
inductive FtOp where
  | call (c : FtCall)
  | backtrackNode
  | mergeBlob (src : Memory UInt8)

def ftOp (cxt : FtCxt) : FtOp → ℕ → Option FtCxt
  | .call c, fuel => ftCall cxt c fuel
  | .backtrackNode, _ => some (ftBacktrackNode cxt)
  | .mergeBlob src, fuel => ftMergeBlob cxt src fuel

/-- Operations one after the other. -/
def ftOps (cxt : FtCxt) : List FtOp → ℕ → Option FtCxt
  | [], _ => some cxt
  | op :: ops, fuel => (ftOp cxt op fuel).bind fun cxt => ftOps cxt ops fuel

/-! ## The end -/

/-- One round of the loop of `ft_end_tree`, with the memory and `p`: the memory in which
the loop has ended, and whether it ended at `OF_DT_END`. -/
def fixupRound (off : ℕ) (s : Memory UInt8 × ℕ) (fuel : ℕ) :
    Option ((Memory UInt8 × Bool) ⊕ (Memory UInt8 × ℕ)) :=
  let (mem, p) := s
  let tag := mem.beWord p
  if tag = ofDtEnd then some (.inl (mem, true))
  else
    let p := p + 4
    if tag = ofDtBeginNode then
      (mem.strAt p fuel).map fun s => .inr (mem, align (p + (s.length + 1)) 4)
    else if tag = ofDtEndNode ∨ tag = ofDtNop then some (.inr (mem, p))
    else if tag ≠ ofDtProp then some (.inl (mem, false))
    else
      let sz := mem.beWord p
      let v := (mem.beWord (p + 4) + 2 ^ 32 - off % 2 ^ 32) % 2 ^ 32
      some (.inr (putBe32 mem (p + 4) v, align (p + 8 + sz) 4))

/-- `-ENOMEM`. -/
def enomem : ℤ := -12

/-- `-EINVAL`. -/
def einval : ℤ := -22

/-- What `ft_end_tree` does behind its loop. -/
def ftSetSizes (cxt : FtCxt) : FtCxt :=
  let p := cxt.bph
  let sz := cxt.pstrBegin + cxt.stringsSize - p
  let sz1 := align sz 16
  let mem := if sz ≠ sz1 then cxt.mem.fill (p + sz) (sz1 - sz) 0 else cxt.mem
  let mem := putBe32 mem (cxt.bph + totalsizeAt) sz1
  let mem := putBe32 mem (cxt.bph + offDtStructAt) (cxt.pBegin - p)
  let mem := putBe32 mem (cxt.bph + offDtStringsAt) (cxt.pstrBegin - p)
  let pstrBegin := cxt.pBegin + cxt.structSize
  { cxt with mem := mem, pstrBegin := pstrBegin, pstr := pstrBegin + cxt.stringsSize }

/-- The sizes of structure and names, and the names moved behind the structure. -/
def ftMoveStrings (cxt : FtCxt) : FtCxt :=
  let structSize := cxt.p - cxt.pBegin
  let stringsSize := cxt.pstrBegin - cxt.pstr
  let pstrBegin := cxt.pBegin + structSize
  let mem := cxt.mem.copyIn pstrBegin (cxt.mem.read cxt.pstr stringsSize)
  { cxt with mem := mem, pstrBegin := pstrBegin, structSize := structSize,
             stringsSize := stringsSize }

/-- `ft_end_tree`: the context, and what is returned. -/
def ftEndTree (cxt : FtCxt) (fuel : ℕ) : Option (FtCxt × ℤ) :=
  let cxt := ftPutWord cxt ofDtEnd
  if cxt.overflow then some (cxt, enomem)
  else
    let off := (cxt.pstrBegin - cxt.pBegin) - (cxt.pstrBegin - cxt.pstr)
    let cxt := ftMoveStrings cxt
    (fuelLoop (fixupRound off) fuel (cxt.mem, cxt.pBegin)).map fun (mem, ended) =>
      if ended then (ftSetSizes { cxt with mem := mem }, 0)
      else ({ cxt with mem := mem }, einval)

/-- A tree from `ft_begin` to `ft_end_tree`. -/
def ftBuild (mem : Memory UInt8) (blob maxSize : ℕ) (areas : List (ℕ × ℕ))
    (ops : List FtOp) (fuel : ℕ) : Option (FtCxt × ℤ) :=
  (ftOps (ftStart mem blob maxSize areas) ops fuel).bind fun cxt => ftEndTree cxt fuel

end TateFirmware.FlatTree
