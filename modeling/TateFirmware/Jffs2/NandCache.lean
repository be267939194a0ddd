import TateFirmware.Support.Memory
import TateFirmware.Support.Run

/-!
# The read cache over NAND

`read_nand_cached` of `fs/jffs2/jffs2_1pass.c` reads NAND through one window of
16 pages.  The window is tagged by its offset alone, and the tag is moved before
the window is filled: where the fill fails, or another device is read, the
window holds what the tag does not promise.
-/

namespace TateFirmware.Jffs2

open Support

/-! ## The cache -/

/-- `NAND_PAGE_SIZE`. -/
def nandPageSize : ℕ := 512

/-- `NAND_CACHE_SIZE`, 16 pages. -/
def nandCacheSize : ℕ := 16 * nandPageSize

/-- A device of `nand_info`: its bytes, and the `u_int32_t` field `size`. -/
structure NandDevice where
  bytes : Memory UInt8
  size : ℕ
  size_lt : size < 2 ^ 32

/-- The static variables `nand_cache`, `none` for a null pointer, and
`nand_cache_off`. -/
structure NandCache where
  data : Option (Memory UInt8)
  off : ℕ

/-- `nand_cache` and `nand_cache_off` as they are initialised. -/
def NandCache.initial : NandCache := ⟨none, 2 ^ 32 - 1⟩

/-- What the world does when the window is filled. -/
structure Filling where
  /-- The block `malloc` returns, if it returns one. -/
  block : Option (Memory UInt8)
  /-- What is in the window when `nand_read` fails, if it fails. -/
  leaves : Option (Memory UInt8)

/-- `nand_read` of `NAND_CACHE_SIZE` bytes into the window, and whether it returned
zero and that length.  A read past the end of the device is refused. -/
def nandRead (dev : NandDevice) (ofs : ℕ) (leaves : Option (Memory UInt8))
    (window : Memory UInt8) : Memory UInt8 × Bool :=
  if dev.size < ofs + nandCacheSize then (window, false)
  else
    match leaves with
    | some junk => (junk, false)
    | none => (dev.bytes.shift ofs, true)

namespace NandCache

variable (c : NandCache) (dev : NandDevice)

/-- The test for a byte outside the window. -/
def misses (pos : ℕ) : Bool :=
  pos < c.off || (c.off + nandCacheSize) % 2 ^ 32 ≤ pos

/-- Move the window to the page of `pos` and fill it. -/
def refill (pos : ℕ) (filling : Filling) : NandCache × Bool :=
  match c.data.or filling.block with
  | none => (⟨none, pos - pos % nandPageSize⟩, false)
  | some window =>
      (⟨some (nandRead dev (pos - pos % nandPageSize) filling.leaves window).1,
          pos - pos % nandPageSize⟩,
        (nandRead dev (pos - pos % nandPageSize) filling.leaves window).2)

/-- The window for `pos`: refilled if the byte is outside. -/
def fetch (pos : ℕ) (filling : Filling) : NandCache × Bool :=
  if c.misses pos then c.refill dev pos filling else (c, true)

/-- `cpy_bytes`. -/
def cpyBytes (pos left : ℕ) : ℕ :=
  min ((c.off + nandCacheSize + 2 ^ 32 - pos) % 2 ^ 32) left

theorem fetch_eq_of_misses {pos : ℕ} (filling : Filling)
    (hmiss : c.misses pos = true) :
    c.fetch dev pos filling = c.refill dev pos filling := if_pos hmiss

theorem fetch_eq_of_hit {pos : ℕ} (filling : Filling)
    (hhit : c.misses pos = false) :
    c.fetch dev pos filling = (c, true) := if_neg (by simp [hhit])

theorem misses_eq_false_iff {c : NandCache} {pos : ℕ} (hpos : pos < 2 ^ 32) :
    c.misses pos = false ↔
      c.off ≤ pos ∧ pos < c.off + nandCacheSize ∧
        c.off + nandCacheSize < 2 ^ 32 := by
  rw [misses, Bool.or_eq_false_iff, decide_eq_false_iff_not,
    decide_eq_false_iff_not]
  simp only [nandCacheSize, nandPageSize]
  omega

theorem refill_off (pos : ℕ) (filling : Filling) :
    (c.refill dev pos filling).1.off = pos - pos % nandPageSize := by
  unfold refill
  split <;> rfl

/-- The window that is used for a byte has the byte inside. -/
theorem fetch_covers {pos : ℕ} (hpos : pos < 2 ^ 32) (filling : Filling) :
    (c.fetch dev pos filling).1.off ≤ pos ∧
      pos < (c.fetch dev pos filling).1.off + nandCacheSize := by
  rcases hmiss : c.misses pos with _ | _
  · rw [fetch_eq_of_hit c dev filling hmiss]
    have hhit := (misses_eq_false_iff hpos).mp hmiss
    exact ⟨hhit.1, hhit.2.1⟩
  · rw [fetch_eq_of_misses c dev filling hmiss, refill_off]
    simp only [nandCacheSize, nandPageSize]
    omega

/-- The bytes copied reach to the end of the window at most. -/
theorem cpyBytes_eq {c : NandCache} {pos : ℕ} (left : ℕ) (hle : c.off ≤ pos)
    (hlt : pos < c.off + nandCacheSize) :
    c.cpyBytes pos left = min (c.off + nandCacheSize - pos) left := by
  have hmod : (c.off + nandCacheSize + 2 ^ 32 - pos) % 2 ^ 32 =
      c.off + nandCacheSize - pos := by
    simp only [nandCacheSize, nandPageSize] at hlt ⊢
    omega
  rw [cpyBytes, hmod]

end NandCache

/-- How `read_nand_cached` ends. -/
inductive NandReply where
  /-- It returns the count as an `int`, with the bytes in `buf`. -/
  | returned (count : ℤ) (buf : List UInt8)
  /-- It returns -1. -/
  | error
  /-- It copies from a null pointer. -/
  | nullCopy

/-- The loop of `read_nand_cached`, with the `bytes_read` bytes copied so far in
`buf`. -/
def readLoop (dev : NandDevice) (fills : ℕ → Filling) (off size : ℕ)
    (c : NandCache) (buf : List UInt8) : NandCache × NandReply :=
  if hleft : buf.length < size then
    let pos := (off + buf.length) % 2 ^ 32
    let fetched := c.fetch dev pos (fills buf.length)
    if fetched.2 then
      match fetched.1.data with
      | none => (fetched.1, .nullCopy)
      | some window =>
          readLoop dev fills off size fetched.1
            (buf ++ window.read (pos - fetched.1.off)
              (fetched.1.cpyBytes pos (size - buf.length)))
    else (fetched.1, .error)
  else (c, .returned ((size : ℤ).bmod (2 ^ 32)) buf)
termination_by size - buf.length
decreasing_by
  have hpos : (off + buf.length) % 2 ^ 32 < 2 ^ 32 := Nat.mod_lt _ (by decide)
  have hcovers := c.fetch_covers dev hpos (fills buf.length)
  have hcopied := NandCache.cpyBytes_eq (size - buf.length) hcovers.1 hcovers.2
  rw [List.length_append, Memory.read_length, hcopied]
  omega

attribute [grind =] readLoop

/-- `read_nand_cached`; a filling for each value of `bytes_read` at which the window
may be filled. -/
def readNandCached (dev : NandDevice) (fills : ℕ → Filling) (off size : ℕ)
    (c : NandCache) : NandCache × NandReply :=
  readLoop dev fills off size c []

/-! ## What the window holds -/

/-- The window holds the device's bytes at the offset of the tag. -/
structure NandCache.Serves (c : NandCache) (dev : NandDevice) : Prop where
  holds : ∃ window, c.data = some window ∧
    ∀ k < nandCacheSize, window k = dev.bytes (c.off + k)
  within : c.off + nandCacheSize ≤ dev.size

namespace NandCache

variable {c : NandCache} {dev : NandDevice}

theorem serves_of_refill {pos : ℕ} {filling : Filling}
    (hread : (c.refill dev pos filling).2 = true) :
    (c.refill dev pos filling).1.Serves dev := by
  unfold refill at hread ⊢
  split at hread
  · cases hread
  · rename_i window _
    dsimp only at hread ⊢
    unfold nandRead at hread ⊢
    split at hread
    · cases hread
    · rename_i hsize
      split at hread
      · cases hread
      · rw [if_neg hsize]
        exact ⟨⟨_, rfl, fun k _ => rfl⟩, Nat.le_of_not_lt hsize⟩

/-- A byte is taken from a window that was filled for it, or that held the device's
bytes before. -/
theorem serves_of_fetch {pos : ℕ} {filling : Filling}
    (hguard : c.Serves dev ∨ c.misses pos = true)
    (hread : (c.fetch dev pos filling).2 = true) :
    (c.fetch dev pos filling).1.Serves dev := by
  rcases hmiss : c.misses pos with _ | _
  · rw [fetch_eq_of_hit c dev filling hmiss]
    exact hguard.resolve_right (by simp [hmiss])
  · rw [fetch_eq_of_misses c dev filling hmiss] at hread ⊢
    exact serves_of_refill hread

end NandCache

/-- The reply has the device's bytes, and leaves them in the window. -/
def Answers (dev : NandDevice) (off size : ℕ) : NandCache × NandReply → Prop
  | (c, .returned _ buf) =>
      buf = dev.bytes.read off size ∧ (0 < size → c.Serves dev)
  | (_, .error) => True
  | (_, .nullCopy) => False

/-- What a round finds: a window of the device with the next byte inside. -/
theorem fetch_serves {dev : NandDevice} {fills : ℕ → Filling} {off size : ℕ}
    {c : NandCache} {buf : List UInt8}
    (hguard : c.Serves dev ∨
      buf = [] ∧ (size = 0 ∨ c.misses (off % 2 ^ 32) = true))
    (hleft : buf.length < size)
    (hread : (c.fetch dev ((off + buf.length) % 2 ^ 32)
      (fills buf.length)).2 = true) :
    (c.fetch dev ((off + buf.length) % 2 ^ 32)
      (fills buf.length)).1.Serves dev := by
  refine NandCache.serves_of_fetch ?_ hread
  rcases hguard with hserves | ⟨hnil, hzero | hmiss⟩
  · exact Or.inl hserves
  · omega
  · subst hnil
    exact Or.inr hmiss

/-- Each round takes its bytes from a window of the device.  The window is the one
there was before only in the first round. -/
theorem readLoop_answers {dev : NandDevice} (fills : ℕ → Filling) {off size : ℕ}
    {c : NandCache} {buf : List UInt8}
    (hguard : c.Serves dev ∨
      buf = [] ∧ (size = 0 ∨ c.misses (off % 2 ^ 32) = true))
    (hbuf : buf = dev.bytes.read off buf.length)
    (hend : buf = [] ∨ off + buf.length ≤ dev.size)
    (hoff : off < 2 ^ 32) (hle : buf.length ≤ size) :
    Answers dev off size (readLoop dev fills off size c buf) := by
  fun_induction readLoop dev fills off size c buf with
  | case1 c buf hleft pos fetched hread hnull =>
      obtain ⟨⟨window, hdata, -⟩, -⟩ := fetch_serves hguard hleft hread
      exact absurd (hdata.symm.trans hnull) (by simp)
  | case2 c buf hleft pos fetched hread window hdata ih =>
      have hserves : fetched.1.Serves dev := fetch_serves hguard hleft hread
      obtain ⟨⟨window', hdata', hholds⟩, hwithin⟩ := hserves
      obtain rfl : window' = window := Option.some.inj (hdata'.symm.trans hdata)
      have hpos : pos = off + buf.length := by
        refine Nat.mod_eq_of_lt ?_
        have hsize := dev.size_lt
        rcases hend with rfl | hend
        · exact hoff
        · omega
      have hcovers : fetched.1.off ≤ pos ∧
          pos < fetched.1.off + nandCacheSize :=
        c.fetch_covers dev (Nat.mod_lt _ (by decide)) (fills buf.length)
      have hcopied := NandCache.cpyBytes_eq (size - buf.length) hcovers.1 hcovers.2
      have hbytes : window'.read (pos - fetched.1.off)
          (fetched.1.cpyBytes pos (size - buf.length)) =
          dev.bytes.read (off + buf.length)
            (fetched.1.cpyBytes pos (size - buf.length)) := by
        refine Memory.read_congr fun k hk => ?_
        rw [hholds _ (by omega)]
        congr 1
        omega
      have hlength : (buf ++ window'.read (pos - fetched.1.off)
          (fetched.1.cpyBytes pos (size - buf.length))).length =
          buf.length + fetched.1.cpyBytes pos (size - buf.length) := by
        rw [List.length_append, Memory.read_length]
      refine ih (Or.inl ⟨⟨window', hdata, hholds⟩, hwithin⟩) ?_ ?_ ?_
      · rw [hlength, Memory.read_add, hbytes, ← hbuf]
      · exact Or.inr (by omega)
      · omega
  | case3 c buf hleft pos fetched hread => trivial
  | case4 c buf hleft =>
      have hsize : buf.length = size := by omega
      refine ⟨hsize ▸ hbuf, fun hpos => ?_⟩
      rcases hguard with hserves | ⟨rfl, -⟩
      · exact hserves
      · exact absurd hpos (by simpa using hleft)

/-- A call inside one window ends after one round. -/
theorem readNandCached_once {dev : NandDevice} {fills : ℕ → Filling} {off size : ℕ}
    {c next : NandCache} {window : Memory UInt8} (hoff : off < 2 ^ 32)
    (hpos : 0 < size) (hfetch : c.fetch dev off (fills 0) = (next, true))
    (hdata : next.data = some window)
    (hinside : off + size ≤ next.off + nandCacheSize) :
    readNandCached dev fills off size c =
      (next, .returned ((size : ℤ).bmod (2 ^ 32))
        (window.read (off - next.off) size)) := by
  have hcovers := c.fetch_covers dev hoff (fills 0)
  rw [hfetch] at hcovers
  dsimp only at hcovers
  have hcopied : next.cpyBytes off size = size := by
    rw [NandCache.cpyBytes_eq size hcovers.1 hcovers.2]
    omega
  rw [readNandCached, readLoop, dif_pos (show [].length < size from hpos)]
  simp only [List.length_nil, Nat.add_zero, Nat.mod_eq_of_lt hoff, hfetch, hdata,
    if_true, Nat.sub_zero, hcopied, List.nil_append]
  rw [readLoop, dif_neg (by simp)]

/-! ## Runs of calls -/

/-- A call of `read_nand_cached`: its arguments, the device of `current_part`, and how
the cache can be filled during it. -/
structure ReadCall where
  device : ℕ
  off : ℕ
  size : ℕ
  off_lt : off < 2 ^ 32
  size_lt : size < 2 ^ 32
  fills : ℕ → Filling

/-- The cache, and what the calls before have used it for. -/
structure CacheRun where
  cache : NandCache
  /-- The device of the last call that asked for a byte; none where that call returned
  an error. -/
  source : Option ℕ

/-- The device the window was filled from after a call. -/
def sourceAfter (source : Option ℕ) (call : ReadCall) : NandReply → Option ℕ
  | .returned _ _ => if call.size = 0 then source else some call.device
  | _ => none

/-- One call, with its reply as the output. -/
def cacheStep (devices : ℕ → NandDevice) (s : CacheRun) (call : ReadCall) :
    CacheRun × List (ReadCall × NandReply) :=
  let r := readNandCached (devices call.device) call.fills call.off call.size
    s.cache
  (⟨r.1, sourceAfter s.source call r.2⟩, [(call, r.2)])

/-- Before the first call. -/
def CacheRun.start : CacheRun := ⟨NandCache.initial, none⟩

/-- A call that succeeds has returned the bytes of its device. -/
def ReturnsBytes (devices : ℕ → NandDevice) (o : ReadCall × NandReply) : Prop :=
  match o.2 with
  | .returned count buf =>
      0 ≤ count → buf = (devices o.1.device).bytes.read o.1.off o.1.size
  | .error => True
  | .nullCopy => False

/-- Where the first byte asked for is inside the window, the call before succeeded, for
the same device. -/
def Guarded (s : CacheRun) (call : ReadCall) : Prop :=
  call.size = 0 ∨ s.cache.misses call.off = true ∨ s.source = some call.device

/-- The window serves the device the calls say it was filled from. -/
def SourceServes (devices : ℕ → NandDevice) (s : CacheRun) : Prop :=
  ∀ d, s.source = some d → s.cache.Serves (devices d)

theorem readLoop_of_empty (dev : NandDevice) (fills : ℕ → Filling) (off : ℕ)
    (c : NandCache) : (readLoop dev fills off 0 c []).1 = c := by
  rw [readLoop, dif_neg (by simp)]

/-- A guarded call answers. -/
theorem readNandCached_answers {devices : ℕ → NandDevice} {s : CacheRun}
    {call : ReadCall} (hguarded : Guarded s call)
    (hserves : SourceServes devices s) :
    Answers (devices call.device) call.off call.size
      (readNandCached (devices call.device) call.fills call.off call.size
        s.cache) := by
  refine readLoop_answers call.fills ?_ rfl (Or.inl rfl) call.off_lt
    (Nat.zero_le _)
  rw [Nat.mod_eq_of_lt call.off_lt]
  rcases hguarded with hzero | hmiss | hsource
  · exact Or.inr ⟨rfl, Or.inl hzero⟩
  · exact Or.inr ⟨rfl, Or.inr hmiss⟩
  · exact Or.inl (hserves _ hsource)

/-- A guarded call returns the bytes of its device, and keeps what the window is said to
hold. -/
theorem cacheStep_guarded {devices : ℕ → NandDevice} {s : CacheRun}
    {call : ReadCall} (hguarded : Guarded s call)
    (hserves : SourceServes devices s) :
    (∀ o ∈ (cacheStep devices s call).2, ReturnsBytes devices o) ∧
      SourceServes devices (cacheStep devices s call).1 := by
  have hanswers := readNandCached_answers hguarded hserves
  have hempty : call.size = 0 → (readNandCached (devices call.device) call.fills
      call.off call.size s.cache).1 = s.cache := by
    intro hzero
    rw [readNandCached, hzero, readLoop_of_empty]
  unfold cacheStep
  dsimp only
  generalize readNandCached (devices call.device) call.fills call.off call.size
    s.cache = r at hanswers hempty
  obtain ⟨c, reply⟩ := r
  constructor
  · intro o ho
    obtain rfl := List.mem_singleton.mp ho
    cases reply with
    | returned count buf => exact fun _ => hanswers.1
    | error => trivial
    | nullCopy => exact hanswers
  · intro d hd
    cases reply with
    | returned count buf =>
        by_cases hzero : call.size = 0
        · rw [sourceAfter, if_pos hzero] at hd
          rw [hempty hzero]
          exact hserves d hd
        · rw [sourceAfter, if_neg hzero] at hd
          obtain rfl := Option.some.inj hd
          exact hanswers.2 (Nat.pos_of_ne_zero hzero)
    | error => cases hd
    | nullCopy => cases hd

/-- In a run of guarded calls each call that succeeds returns the bytes of the current
device. -/
theorem guardedRun_returnsBytes (devices : ℕ → NandDevice) (calls : List ReadCall)
    (hguarded : StepsMeet (cacheStep devices) Guarded CacheRun.start calls) :
    ∀ o ∈ (run (cacheStep devices) CacheRun.start calls).2,
      ReturnsBytes devices o := by
  have hstart : SourceServes devices CacheRun.start := by
    intro d hd
    cases hd
  refine run_outputs_of_stepsMeet
    (A := fun s call => Guarded s call ∧ SourceServes devices s) ?_ ?_
  · rintro s call ⟨hguarded, hserves⟩
    exact (cacheStep_guarded hguarded hserves).1
  · refine hguarded.imp_of_invariant ?_ hstart
    intro s call hguarded hserves
    exact ⟨⟨hguarded, hserves⟩, (cacheStep_guarded hguarded hserves).2⟩

/-- A call inside the window returns the bytes of its device exactly when the window
holds them. -/
theorem readInside_iff {devices : ℕ → NandDevice} {c : NandCache}
    {window : Memory UInt8} {call : ReadCall} (hdata : c.data = some window)
    (hhit : c.misses call.off = false) (hpos : 0 < call.size)
    (hinside : call.off + call.size ≤ c.off + nandCacheSize) :
    ReturnsBytes devices (call, (readNandCached (devices call.device) call.fills
        call.off call.size c).2) ↔
      window.read (call.off - c.off) call.size =
        (devices call.device).bytes.read call.off call.size := by
  rw [readNandCached_once call.off_lt hpos
    (c.fetch_eq_of_hit (devices call.device) (call.fills 0) hhit) hdata hinside]
  have hsmall : call.size ≤ nandCacheSize := by
    have hcovers := (NandCache.misses_eq_false_iff call.off_lt).mp hhit
    omega
  have hcount : 0 ≤ (call.size : ℤ).bmod (2 ^ 32) := by
    simp only [nandCacheSize, nandPageSize] at hsmall
    rw [Int.bmod_eq_of_le (by omega) (by omega)]
    omega
  exact ⟨fun h => h hcount, fun h _ => h⟩

/-- Devices all of whose bytes are one. -/
def onesDevices : ℕ → NandDevice := fun _ => ⟨fun _ => 1, 2 ^ 20, by decide⟩

/-- A call for the first byte, with zeros in the window where reading fails. -/
def firstByte (leaves : Option (Memory UInt8)) : ReadCall where
  device := 0
  off := 0
  size := 1
  off_lt := by decide
  size_lt := by decide
  fills := fun _ => ⟨some fun _ => 0, leaves⟩

/-- A call for the byte behind the window of the first, whose fill fails. -/
def failedByte : ReadCall :=
  { firstByte (some fun _ => 0) with off := nandCacheSize, off_lt := by decide }

/-- The window after the first byte was asked for. -/
def firstWindow : NandCache := ⟨some ((onesDevices 0).bytes.shift 0), 0⟩

/-- Whether it is filled for it or there, the window of the first byte is the same. -/
theorem cacheStep_firstByte {s : CacheRun}
    (hfetch : s.cache.fetch (onesDevices 0) 0 ⟨some fun _ => 0, none⟩ =
      (firstWindow, true)) :
    (cacheStep onesDevices s (firstByte none)).1 = ⟨firstWindow, some 0⟩ := by
  have honce : readNandCached (onesDevices 0) (firstByte none).fills 0 1 s.cache =
      (firstWindow, .returned _ _) :=
    readNandCached_once (by decide) (by decide) hfetch rfl (by decide)
  exact congrArg (fun r => CacheRun.mk r.1 (sourceAfter s.source (firstByte none) r.2))
    honce

/-- The first byte is read, found in the window, lost from it when the fill for a
later byte fails, and read again. -/
theorem guardedRun_returnsBytes_failedByte :
    StepsMeet (cacheStep onesDevices) Guarded CacheRun.start
        [firstByte none, firstByte none, failedByte, firstByte none] ∧
      ∀ o ∈ (run (cacheStep onesDevices) CacheRun.start
        [firstByte none, firstByte none, failedByte, firstByte none]).2,
        ReturnsBytes onesDevices o := by
  have hguarded : StepsMeet (cacheStep onesDevices) Guarded CacheRun.start
      [firstByte none, firstByte none, failedByte, firstByte none] := by
    have hfilled : (cacheStep onesDevices CacheRun.start (firstByte none)).1 =
        ⟨firstWindow, some 0⟩ := cacheStep_firstByte rfl
    have hhit : (cacheStep onesDevices ⟨firstWindow, some 0⟩ (firstByte none)).1 =
        ⟨firstWindow, some 0⟩ := cacheStep_firstByte rfl
    have hlost : (cacheStep onesDevices ⟨firstWindow, some 0⟩ failedByte).1.cache.off =
        nandCacheSize := by
      rw [cacheStep, readNandCached, readLoop]
      rfl
    refine ⟨Or.inr (Or.inl (by decide)), ?_⟩
    rw [hfilled]
    refine ⟨Or.inr (Or.inr rfl), ?_⟩
    rw [hhit]
    refine ⟨Or.inr (Or.inl (by decide)), Or.inr (Or.inl ?_), trivial⟩
    rw [NandCache.misses, hlost]
    decide
  exact ⟨hguarded, guardedRun_returnsBytes onesDevices _ hguarded⟩

/-- The window is tagged although filling it failed, and the next call takes its
byte. -/
theorem failedFill_not_returnsBytes :
    ¬ ∀ o ∈ (run (cacheStep onesDevices) CacheRun.start
      [firstByte (some fun _ => 0), firstByte none]).2,
      ReturnsBytes onesDevices o := by
  have hfailed : (cacheStep onesDevices CacheRun.start
      (firstByte (some fun _ => 0))).1.cache = ⟨some fun _ => 0, 0⟩ := by
    rw [cacheStep, readNandCached, readLoop]
    rfl
  intro h
  have hsecond := h _ (List.mem_append_right _
    (List.mem_append_left _ (List.mem_singleton_self _)))
  rw [hfailed, readInside_iff rfl (by decide) (by decide) (by decide)] at hsecond
  exact absurd hsecond (by decide)

end TateFirmware.Jffs2
