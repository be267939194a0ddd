import TateFirmware.Support.Records

/-!
# The configuration descriptor of a USB device

`usb_parse_config` of `common/usb.c` on a little-endian CPU.  The descriptors of
the device are copied into `dev->config` with the lengths they announce
themselves.  A run keeps the stretches of the buffer it reads and the stretches of
`*dev` it writes besides `configno`; the structure is memory, so that what is
written through a wrong index goes where the code writes it.
-/

namespace TateFirmware.Usb

open Support Support.Memory

/-! ## Layout -/

/-- `USB_BUFSIZ`. -/
def usbBufsiz : ℕ := 512

/-- `USB_MAXINTERFACES`. -/
def usbMaxinterfaces : ℕ := 8

/-- `USB_MAXENDPOINTS`. -/
def usbMaxendpoints : ℕ := 16

/-- The offset of `config` in `struct usb_device`. -/
def configAt : ℕ := 274

/-- `sizeof(struct usb_endpoint_descriptor)`. -/
def endpointSize : ℕ := 9

/-- `sizeof(struct usb_interface_descriptor)`. -/
def interfaceSize : ℕ := 12 + usbMaxendpoints * endpointSize

/-- The end of `config`. -/
def configEnd : ℕ := configAt + 10 + usbMaxinterfaces * interfaceSize

/-- `config.wTotalLength`. -/
def totalLength (dev : Memory UInt8) : ℕ := dev.leHalf (configAt + 2)

/-- The offset of `config.no_of_if`. -/
def noOfIf : ℕ := configAt + 9

/-- The offset of `config.if_desc[ifno]`, with -1 as `none`. -/
def ifDesc : Option ℕ → ℕ
  | none => configAt + 10 - interfaceSize
  | some ifno => configAt + 10 + ifno * interfaceSize

/-- The offset of `no_of_ep` in an interface descriptor. -/
def noOfEp : ℕ := 9

/-- The offset of `num_altsetting`. -/
def numAltsetting : ℕ := 10

/-- The offset of `ep_desc[epno]`. -/
def epDesc (epno : ℕ) : ℕ := 12 + epno * endpointSize

/-- A stretch of memory that is read or written. -/
structure Span where
  start : ℕ
  length : ℕ

/-- The stretch lies between two places, unless it is empty. -/
def Span.Within (lo hi : ℕ) (s : Span) : Prop :=
  s.length = 0 ∨ lo ≤ s.start ∧ s.start + s.length ≤ hi

/-! ## The parser -/

/-- The variables of the loop: `index`, and `ifno` and `curr_if_num` with -1 as
`none`. -/
structure ConfigParse where
  index : ℕ
  ifno : Option ℕ
  currIfNum : Option UInt8
  dev : Memory UInt8

/-- What a pass of the loop reads of the buffer and writes to the device, and where
it goes on; `none` where it returns. -/
structure ConfigPass where
  reads : List Span
  writes : List Span
  next : Option ConfigParse

/-- `bLength` of the descriptor at `index`. -/
def ConfigParse.len (buffer : Memory UInt8) (s : ConfigParse) : ℕ :=
  (buffer s.index).toNat

/-- A new interface. -/
def newInterface (buffer : Memory UInt8) (s : ConfigParse) : ConfigPass :=
  let ifno := (s.dev noOfIf).toNat
  let desc := ifDesc (some ifno)
  let dev := s.dev.store noOfIf (s.dev noOfIf + 1)
  let dev := dev.copyIn desc (buffer.read s.index (s.len buffer))
  let dev := (dev.store (desc + noOfEp) 0).store (desc + numAltsetting) 1
  { reads := [⟨s.index, s.len buffer⟩]
    writes := [⟨noOfIf, 1⟩, ⟨desc, s.len buffer⟩, ⟨desc + noOfEp, 1⟩,
      ⟨desc + numAltsetting, 1⟩]
    next := some ⟨s.index + s.len buffer, some ifno, some (dev (desc + 2)), dev⟩ }

/-- An alternate setting of the current interface. -/
def alternateSetting (buffer : Memory UInt8) (s : ConfigParse) : ConfigPass :=
  let count := ifDesc s.ifno + numAltsetting
  { reads := []
    writes := [⟨count, 1⟩]
    next := some { s with
      index := s.index + s.len buffer
      dev := s.dev.store count (s.dev count + 1) } }

/-- An endpoint.  On a little-endian CPU `swap_16` leaves `wMaxPacketSize` as it
is. -/
def newEndpoint (buffer : Memory UInt8) (s : ConfigParse) : ConfigPass :=
  let count := ifDesc s.ifno + noOfEp
  let desc := ifDesc s.ifno + epDesc (s.dev count).toNat
  { reads := [⟨s.index, s.len buffer⟩]
    writes := [⟨count, 1⟩, ⟨desc, s.len buffer⟩, ⟨desc + 4, 2⟩]
    next := some { s with
      index := s.index + s.len buffer
      dev := (s.dev.store count (s.dev count + 1)).copyIn desc
        (buffer.read s.index (s.len buffer)) } }

/-- One pass of the loop. -/
def parsePass (buffer : Memory UInt8) (s : ConfigParse) : ConfigPass :=
  let pass :=
    -- `USB_DT_INTERFACE` and `USB_DT_ENDPOINT`
    if buffer (s.index + 1) = 4 then
      let pass :=
        if some (buffer (s.index + 2)) ≠ s.currIfNum then newInterface buffer s
        else alternateSetting buffer s
      { pass with reads := ⟨s.index + 2, 1⟩ :: pass.reads }
    else if buffer (s.index + 1) = 5 then newEndpoint buffer s
    else if s.len buffer = 0 then ⟨[], [], none⟩
    else ⟨[], [], some { s with index := s.index + s.len buffer }⟩
  { pass with reads := ⟨s.index, 2⟩ :: pass.reads }

/-- What a run leaves: its result, `none` while it is running, the device, and what
was read and written. -/
structure ConfigRun where
  ret : Option ℤ
  dev : Memory UInt8
  reads : List Span
  writes : List Span

/-- A pass in front of a run. -/
def ConfigRun.after (run : ConfigRun) (pass : ConfigPass) : ConfigRun :=
  { run with reads := pass.reads ++ run.reads, writes := pass.writes ++ run.writes }

/-- The loop over the descriptors. -/
def parseLoop (buffer : Memory UInt8) : ℕ → ConfigParse → ConfigRun
  | 0, s => ⟨none, s.dev, [], []⟩
  | rounds + 1, s =>
      if s.index + 1 < totalLength s.dev then
        match (parsePass buffer s).next with
        | none => ⟨some 1, s.dev, (parsePass buffer s).reads, (parsePass buffer s).writes⟩
        | some next => (parseLoop buffer rounds next).after (parsePass buffer s)
      else ⟨some 1, s.dev, [], []⟩

attribute [grind =] parseLoop

/-- The state the loop starts in. -/
def ConfigParse.start (buffer dev : Memory UInt8) : ConfigParse :=
  let dev := dev.copyIn configAt (buffer.read 0 (buffer 0).toNat)
  ⟨(dev configAt).toNat, none, none, dev.store noOfIf 0⟩

/-- `usb_parse_config`, but for `dev->configno = cfgno`. -/
def usbParseConfig (buffer dev : Memory UInt8) (rounds : ℕ) : ConfigRun :=
  if buffer 1 ≠ 2 then ⟨some (-1), dev, [⟨1, 1⟩], []⟩
  else
    (parseLoop buffer rounds (ConfigParse.start buffer dev)).after
      { reads := [⟨1, 1⟩, ⟨0, 1⟩, ⟨0, (buffer 0).toNat⟩]
        writes := [⟨configAt, (buffer 0).toNat⟩, ⟨configAt + 2, 2⟩, ⟨noOfIf, 1⟩]
        next := none }

/-! ## Safety -/

/-- The interfaces and the endpoints recorded are as many as there is room for. -/
def CountsFit (dev : Memory UInt8) : Prop :=
  (dev noOfIf).toNat ≤ usbMaxinterfaces ∧
    ∀ i < (dev noOfIf).toNat, (dev (ifDesc (some i) + noOfEp)).toNat ≤ usbMaxendpoints

/-- A run ends, reads the buffer only, writes the configuration only, and never
records more than there is room for. -/
structure RunSafe (run : ℕ → ConfigRun) : Prop where
  ends : ∃ rounds, (run rounds).ret.isSome
  reads : ∀ rounds, ∀ r ∈ (run rounds).reads, r.Within 0 usbBufsiz
  writes : ∀ rounds, ∀ w ∈ (run rounds).writes, w.Within configAt configEnd
  counts : ∀ rounds, (run rounds).ret ≠ some (-1) → CountsFit (run rounds).dev

/-- The descriptor a pass finds is in the buffer; an interface is not empty, and a
new one fits behind those before it; an endpoint is not empty, comes behind an
interface and fits behind the endpoints before it. -/
structure PassOk (buffer : Memory UInt8) (s : ConfigParse) : Prop where
  header : s.index + 2 ≤ usbBufsiz
  interface : buffer (s.index + 1) = 4 → s.index + 2 < usbBufsiz ∧ 0 < s.len buffer
  fresh : buffer (s.index + 1) = 4 → some (buffer (s.index + 2)) ≠ s.currIfNum →
    (s.dev noOfIf).toNat < usbMaxinterfaces ∧ s.index + s.len buffer ≤ usbBufsiz ∧
      ifDesc (some (s.dev noOfIf).toNat) + s.len buffer ≤ configEnd
  endpoint : buffer (s.index + 1) = 5 → 0 < s.len buffer ∧ s.ifno.isSome ∧
    (s.dev (ifDesc s.ifno + noOfEp)).toNat < usbMaxendpoints ∧
      s.index + s.len buffer ≤ usbBufsiz ∧
      ifDesc s.ifno + epDesc (s.dev (ifDesc s.ifno + noOfEp)).toNat + s.len buffer ≤
        configEnd

/-- Every descriptor the loop comes to is one it can take. -/
def LoopOk (buffer : Memory UInt8) : ℕ → ConfigParse → Prop
  | 0, _ => True
  | rounds + 1, s =>
      s.index + 1 < totalLength s.dev →
        PassOk buffer s ∧ ∀ next ∈ (parsePass buffer s).next, LoopOk buffer rounds next

/-! ## One pass -/

variable {buffer : Memory UInt8} {s s' : ConfigParse}

/-- The kinds of pass. -/
inductive PassCase (buffer : Memory UInt8) (s : ConfigParse) : ConfigPass → Prop where
  | fresh : buffer (s.index + 1) = 4 → some (buffer (s.index + 2)) ≠ s.currIfNum →
      PassCase buffer s ⟨⟨s.index, 2⟩ :: ⟨s.index + 2, 1⟩ :: (newInterface buffer s).reads,
        (newInterface buffer s).writes, (newInterface buffer s).next⟩
  | alternate : buffer (s.index + 1) = 4 → some (buffer (s.index + 2)) = s.currIfNum →
      PassCase buffer s ⟨[⟨s.index, 2⟩, ⟨s.index + 2, 1⟩],
        (alternateSetting buffer s).writes, (alternateSetting buffer s).next⟩
  | endpoint : buffer (s.index + 1) = 5 →
      PassCase buffer s ⟨⟨s.index, 2⟩ :: (newEndpoint buffer s).reads,
        (newEndpoint buffer s).writes, (newEndpoint buffer s).next⟩
  | stop : buffer (s.index + 1) ≠ 4 → buffer (s.index + 1) ≠ 5 → s.len buffer = 0 →
      PassCase buffer s ⟨[⟨s.index, 2⟩], [], none⟩
  | skip : buffer (s.index + 1) ≠ 4 → buffer (s.index + 1) ≠ 5 → s.len buffer ≠ 0 →
      PassCase buffer s ⟨[⟨s.index, 2⟩], [],
        some { s with index := s.index + s.len buffer }⟩

theorem parsePass_case (buffer : Memory UInt8) (s : ConfigParse) :
    PassCase buffer s (parsePass buffer s) := by
  unfold parsePass
  by_cases hinterface : buffer (s.index + 1) = 4
  · by_cases hnum : some (buffer (s.index + 2)) ≠ s.currIfNum
    · simp only [if_pos hinterface, if_pos hnum]
      exact .fresh hinterface hnum
    · simp only [if_pos hinterface, if_neg hnum]
      exact .alternate hinterface (not_not.mp hnum)
  by_cases hendpoint : buffer (s.index + 1) = 5
  · simp only [if_neg hinterface, if_pos hendpoint]
    exact .endpoint hendpoint
  by_cases hlen : s.len buffer = 0
  · simp only [if_neg hinterface, if_neg hendpoint, if_pos hlen]
    exact .stop hinterface hendpoint hlen
  · simp only [if_neg hinterface, if_neg hendpoint, if_neg hlen]
    exact .skip hinterface hendpoint hlen

/-- A pass moves by the length of the descriptor. -/
theorem parsePass_index (h : (parsePass buffer s).next = some s') :
    s'.index = s.index + s.len buffer := by
  cases hpass : parsePass buffer s with
  | mk reads writes next' =>
      rw [hpass] at h
      have hcase := hpass ▸ parsePass_case buffer s
      cases hcase <;> first | cases h; rfl | cases h

/-- The interface that is parsed, if there is one, begins behind the header of the
configuration. -/
theorem le_ifDesc {ifno : Option ℕ} (h : ifno.isSome) : noOfIf < ifDesc ifno := by
  obtain ⟨i, rfl⟩ := Option.isSome_iff_exists.mp h
  simp only [noOfIf, ifDesc]
  omega

/-- Only inside an interface does a pass that writes nothing but the configuration
write through `ifno`. -/
theorem isSome_ifno {n : ℕ} (hn : n < interfaceSize - 10) {len : ℕ} (hlen : len ≠ 0)
    (hwithin : (⟨ifDesc s.ifno + n, len⟩ : Span).Within configAt configEnd) :
    s.ifno.isSome := by
  cases hifno : s.ifno with
  | some i => rfl
  | none =>
      rw [hifno] at hwithin
      rcases hwithin with h | ⟨h, -⟩
      · exact absurd h hlen
      · simp only [ifDesc, configAt, interfaceSize, usbMaxendpoints, endpointSize] at h hn
        omega

/-- A pass that writes nothing but the configuration leaves its header alone. -/
theorem parsePass_below (h : (parsePass buffer s).next = some s')
    (hwrites : ∀ w ∈ (parsePass buffer s).writes, w.Within configAt configEnd)
    {k : ℕ} (hk : k < noOfIf) : s'.dev k = s.dev k := by
  cases hpass : parsePass buffer s with
  | mk reads writes next' =>
      rw [hpass] at h hwrites
      have hcase := hpass ▸ parsePass_case buffer s
      cases hcase with
      | fresh =>
          cases h
          have hdesc : noOfIf < ifDesc (some (s.dev noOfIf).toNat) := le_ifDesc rfl
          dsimp only
          rw [store_of_ne _ (by omega), store_of_ne _ (by omega),
            copyIn_of_lt _ (by omega), store_of_ne _ (by omega)]
      | alternate =>
          cases h
          have hdesc := le_ifDesc (isSome_ifno (by decide) Nat.one_ne_zero
            (hwrites _ (List.mem_singleton_self _)))
          exact store_of_ne _ (by omega)
      | endpoint =>
          cases h
          have hdesc := le_ifDesc (isSome_ifno (by decide) Nat.one_ne_zero
            (hwrites _ (List.mem_cons_self ..)))
          dsimp only
          rw [copyIn_of_lt _ (by omega), store_of_ne _ (by omega)]
      | stop => cases h
      | skip => cases h; rfl

theorem parsePass_totalLength (h : (parsePass buffer s).next = some s')
    (hwrites : ∀ w ∈ (parsePass buffer s).writes, w.Within configAt configEnd) :
    totalLength s'.dev = totalLength s.dev := by
  unfold totalLength
  apply leHalf_congr
  intro k hk
  exact parsePass_below h hwrites (by simp only [noOfIf]; omega)

/-! ## From the run to its passes -/

theorem parseLoop_next {rounds : ℕ} (hmore : s.index + 1 < totalLength s.dev)
    (hnext : (parsePass buffer s).next = some s') :
    parseLoop buffer (rounds + 1) s =
      (parseLoop buffer rounds s').after (parsePass buffer s) := by
  rw [parseLoop, if_pos hmore, hnext]

theorem parseLoop_stop {rounds : ℕ} (hmore : s.index + 1 < totalLength s.dev)
    (hnext : (parsePass buffer s).next = none) :
    parseLoop buffer (rounds + 1) s =
      ⟨some 1, s.dev, (parsePass buffer s).reads, (parsePass buffer s).writes⟩ := by
  rw [parseLoop, if_pos hmore, hnext]

theorem parseLoop_done {rounds : ℕ} (hdone : ¬s.index + 1 < totalLength s.dev) :
    parseLoop buffer (rounds + 1) s = ⟨some 1, s.dev, [], []⟩ := by
  rw [parseLoop, if_neg hdone]

/-- What a pass touches, a run of one round touches. -/
theorem parseLoop_one (hmore : s.index + 1 < totalLength s.dev) :
    (parsePass buffer s).reads ⊆ (parseLoop buffer 1 s).reads ∧
      (parsePass buffer s).writes ⊆ (parseLoop buffer 1 s).writes := by
  cases hnext : (parsePass buffer s).next with
  | none =>
      rw [parseLoop_stop hmore hnext]
      exact ⟨List.Subset.refl _, List.Subset.refl _⟩
  | some s' =>
      rw [parseLoop_next hmore hnext]
      exact ⟨List.subset_append_left .., List.subset_append_left ..⟩

namespace RunSafe

/-- A safe run goes on safely. -/
theorem next (h : RunSafe fun rounds => parseLoop buffer rounds s)
    (hmore : s.index + 1 < totalLength s.dev)
    (hnext : (parsePass buffer s).next = some s') :
    RunSafe fun rounds => parseLoop buffer rounds s' where
  ends := by
    obtain ⟨rounds, hret⟩ := h.ends
    cases rounds with
    | zero => cases hret
    | succ rounds =>
        rw [parseLoop_next hmore hnext] at hret
        exact ⟨rounds, hret⟩
  reads rounds r hr := by
    refine h.reads (rounds + 1) r ?_
    rw [parseLoop_next hmore hnext]
    exact List.mem_append_right _ hr
  writes rounds w hw := by
    refine h.writes (rounds + 1) w ?_
    rw [parseLoop_next hmore hnext]
    exact List.mem_append_right _ hw
  counts rounds hret := by
    have hcounts := h.counts (rounds + 1)
    rw [parseLoop_next hmore hnext] at hcounts
    exact hcounts hret

theorem passReads (h : RunSafe fun rounds => parseLoop buffer rounds s)
    (hmore : s.index + 1 < totalLength s.dev) :
    ∀ r ∈ (parsePass buffer s).reads, r.Within 0 usbBufsiz :=
  fun r hr => h.reads 1 r ((parseLoop_one hmore).1 hr)

theorem passWrites (h : RunSafe fun rounds => parseLoop buffer rounds s)
    (hmore : s.index + 1 < totalLength s.dev) :
    ∀ w ∈ (parsePass buffer s).writes, w.Within configAt configEnd :=
  fun w hw => h.writes 1 w ((parseLoop_one hmore).2 hw)

theorem countsFit (h : RunSafe fun rounds => parseLoop buffer rounds s) :
    CountsFit s.dev := h.counts 0 (by rw [parseLoop]; simp)

/-- The loop stays at an empty interface or endpoint. -/
theorem parseLoop_running (h : RunSafe fun rounds => parseLoop buffer rounds s)
    (hmore : s.index + 1 < totalLength s.dev)
    (htype : buffer (s.index + 1) = 4 ∨ buffer (s.index + 1) = 5)
    (hlen : s.len buffer = 0) (rounds : ℕ) : (parseLoop buffer rounds s).ret = none := by
  induction rounds generalizing s with
  | zero => rfl
  | succ rounds ih =>
      cases hnext : (parsePass buffer s).next with
      | none =>
          cases hpass : parsePass buffer s with
          | mk reads writes next' =>
              rw [hpass] at hnext
              have hcase := hpass ▸ parsePass_case buffer s
              cases hcase with
              | stop hinterface hendpoint =>
                  exact (htype.elim hinterface hendpoint).elim
              | _ => cases hnext
      | some s' =>
          have hindex := parsePass_index hnext
          rw [hlen, Nat.add_zero] at hindex
          have htotal := parsePass_totalLength hnext (h.passWrites hmore)
          rw [parseLoop_next hmore hnext]
          refine ih (h.next hmore hnext) ?_ ?_ ?_
          · rwa [hindex, htotal]
          · rwa [hindex]
          · rwa [ConfigParse.len, hindex]

theorem len_pos (h : RunSafe fun rounds => parseLoop buffer rounds s)
    (hmore : s.index + 1 < totalLength s.dev)
    (htype : buffer (s.index + 1) = 4 ∨ buffer (s.index + 1) = 5) :
    0 < s.len buffer := by
  by_contra hzero
  obtain ⟨rounds, hret⟩ := h.ends
  rw [h.parseLoop_running hmore htype (by omega) rounds] at hret
  cases hret

end RunSafe

/-! ## From a pass to the run -/

/-- The current interface is the last one, and there is one once there is a current
number. -/
structure ParseInv (s : ConfigParse) : Prop where
  last : ∀ i ∈ s.ifno, (s.dev noOfIf).toNat = i + 1
  curr : s.currIfNum.isSome → s.ifno.isSome

/-- What a new interface leaves below its own bytes. -/
theorem newInterface_dev (h : (newInterface buffer s).next = some s') {k : ℕ}
    (hk : k < ifDesc (some (s.dev noOfIf).toNat)) (hne : k ≠ noOfIf) :
    s'.dev k = s.dev k := by
  cases h
  dsimp only
  rw [store_of_ne _ (by omega), store_of_ne _ (by omega), copyIn_of_lt _ hk,
    store_of_ne _ hne]

theorem newInterface_noOfIf (h : (newInterface buffer s).next = some s') :
    s'.dev noOfIf = s.dev noOfIf + 1 := by
  cases h
  have hdesc : noOfIf < ifDesc (some (s.dev noOfIf).toNat) := le_ifDesc rfl
  dsimp only
  rw [store_of_ne _ (by omega), store_of_ne _ (by omega), copyIn_of_lt _ hdesc,
    store_same]

theorem newInterface_noOfEp (h : (newInterface buffer s).next = some s') :
    s'.dev (ifDesc (some (s.dev noOfIf).toNat) + noOfEp) = 0 := by
  cases h
  dsimp only
  rw [store_of_ne _ (by simp only [noOfEp, numAltsetting]; omega), store_same]

/-- What an endpoint leaves below its own bytes. -/
theorem newEndpoint_below (h : (newEndpoint buffer s).next = some s') {k : ℕ}
    (hk : k < ifDesc s.ifno + epDesc (s.dev (ifDesc s.ifno + noOfEp)).toNat)
    (hne : k ≠ ifDesc s.ifno + noOfEp) : s'.dev k = s.dev k := by
  cases h
  dsimp only
  rw [copyIn_of_lt _ hk, store_of_ne _ hne]

theorem newEndpoint_dev (h : (newEndpoint buffer s).next = some s') {k : ℕ}
    (hk : k < ifDesc s.ifno + 12) (hne : k ≠ ifDesc s.ifno + noOfEp) :
    s'.dev k = s.dev k :=
  newEndpoint_below h (by simp only [epDesc]; omega) hne

theorem newEndpoint_noOfEp (h : (newEndpoint buffer s).next = some s') :
    s'.dev (ifDesc s.ifno + noOfEp) = s.dev (ifDesc s.ifno + noOfEp) + 1 := by
  cases h
  dsimp only
  rw [copyIn_of_lt _ (by simp only [epDesc, noOfEp]; omega), store_same]

theorem alternateSetting_dev (h : (alternateSetting buffer s).next = some s') {k : ℕ}
    (hne : k ≠ ifDesc s.ifno + numAltsetting) : s'.dev k = s.dev k := by
  cases h
  exact store_of_ne _ hne

/-- The interfaces stand one behind the other. -/
theorem ifDesc_add {i j : ℕ} (h : i < j) :
    ifDesc (some i) + interfaceSize ≤ ifDesc (some j) := by
  have := Nat.mul_le_mul_right interfaceSize (show i + 1 ≤ j from h)
  rw [Nat.succ_mul] at this
  simp only [ifDesc]
  omega

/-- A count that has been moved up by one fits below the bound. -/
theorem lt_of_succ_le {c : UInt8} {n : ℕ} (hle : c.toNat ≤ n) (hn : n < 255)
    (h : (c + 1).toNat ≤ n) : c.toNat < n := by
  rw [UInt8.toNat_add, UInt8.toNat_one] at h
  omega

/-- An endpoint there is room for stands inside its interface. -/
theorem epDesc_le {n : ℕ} (h : n < usbMaxendpoints) :
    epDesc n + endpointSize ≤ interfaceSize := by
  simp only [epDesc, interfaceSize, usbMaxendpoints, endpointSize] at h ⊢
  omega

theorem toNat_succ {c : UInt8} (h : c.toNat < 255) : (c + 1).toNat = c.toNat + 1 := by
  rw [UInt8.toNat_add, UInt8.toNat_one]
  omega

namespace ParseInv

theorem pass (h : ParseInv s) (hcounts : CountsFit s.dev)
    (hwrites : ∀ w ∈ (parsePass buffer s).writes, w.Within configAt configEnd)
    (hnext : (parsePass buffer s).next = some s') : ParseInv s' := by
  have hfew : (s.dev noOfIf).toNat < 255 := by
    have := hcounts.1
    simp only [usbMaxinterfaces] at this
    omega
  cases hpass : parsePass buffer s with
  | mk reads writes next =>
      rw [hpass] at hnext hwrites
      have hcase := hpass ▸ parsePass_case buffer s
      cases hcase with
      | fresh =>
          have hnum := newInterface_noOfIf hnext
          constructor
          · intro i hi
            cases hnext
            cases hi
            rw [hnum, toNat_succ hfew]
          · intro _
            cases hnext
            rfl
      | alternate =>
          have hdesc := le_ifDesc (isSome_ifno (by decide) Nat.one_ne_zero
            (hwrites _ (List.mem_singleton_self _)))
          have hnum := alternateSetting_dev hnext (k := noOfIf) (by omega)
          cases hnext
          exact ⟨fun i hi => by rw [hnum]; exact h.last i hi, h.curr⟩
      | endpoint =>
          have hdesc := le_ifDesc (isSome_ifno (by decide) Nat.one_ne_zero
            (hwrites _ (List.mem_cons_self ..)))
          have hnum := newEndpoint_dev hnext (k := noOfIf) (by omega) (by omega)
          cases hnext
          exact ⟨fun i hi => by rw [hnum]; exact h.last i hi, h.curr⟩
      | stop => cases hnext
      | skip =>
          cases hnext
          exact ⟨h.last, h.curr⟩

theorem fits (h : ParseInv s) (hcounts : CountsFit s.dev) (hsome : s.ifno.isSome) :
    ifDesc s.ifno + interfaceSize ≤ configEnd := by
  obtain ⟨i, hi⟩ := Option.isSome_iff_exists.mp hsome
  have hlast := h.last i hi
  have hfew := hcounts.1
  rw [hi]
  exact ifDesc_add (show i < usbMaxinterfaces by omega)

end ParseInv

/-- A stretch that is not empty lies between the places. -/
theorem Span.Within.le {lo hi start length : ℕ}
    (h : (⟨start, length⟩ : Span).Within lo hi) (hpos : 0 < length) :
    lo ≤ start ∧ start + length ≤ hi :=
  h.resolve_left (by dsimp only; omega)

/-- In a safe run every pass is one the loop can take. -/
theorem RunSafe.passOk (h : RunSafe fun rounds => parseLoop buffer rounds s)
    (hinv : ParseInv s) (hmore : s.index + 1 < totalLength s.dev) :
    PassOk buffer s := by
  have hreads := h.passReads hmore
  have hwrites := h.passWrites hmore
  have hcounts := h.countsFit
  have hpos := h.len_pos hmore
  have hnext : ∀ s', (parsePass buffer s).next = some s' → CountsFit s'.dev :=
    fun s' hs' => (h.next hmore hs').countsFit
  have hheader : s.index + 2 ≤ usbBufsiz := by
    have hcase := parsePass_case buffer s
    generalize parsePass buffer s = pass at hcase hreads
    cases hcase <;>
      exact ((hreads _ (List.mem_cons_self ..)).le (by decide)).2
  have hcase := parsePass_case buffer s
  generalize parsePass buffer s = pass at hcase hreads hwrites hnext
  cases hcase with
  | fresh htype hnum =>
      have hlen := hpos (.inl htype)
      have hnumber := hreads _ (List.mem_cons_of_mem _ (List.mem_cons_self ..))
      have hcopy := hreads _ (List.mem_cons_of_mem _ (List.mem_cons_of_mem _
        (List.mem_singleton_self _)))
      have hdesc := hwrites _ (List.mem_cons_of_mem _ (List.mem_cons_self ..))
      have hcount := (hnext _ rfl).1
      rw [newInterface_noOfIf rfl] at hcount
      refine ⟨hheader, fun _ => ⟨(hnumber.le (by decide)).2, hlen⟩, fun _ _ => ⟨?_, ?_, ?_⟩,
        fun hendpoint => ?_⟩
      · exact lt_of_succ_le hcounts.1 (by decide) hcount
      · exact (hcopy.le hlen).2
      · exact (hdesc.le hlen).2
      · rw [htype] at hendpoint
        exact absurd hendpoint (by decide)
  | alternate htype hnum =>
      have hnumber := hreads _ (List.mem_cons_of_mem _ (List.mem_singleton_self _))
      refine ⟨hheader, fun _ => ⟨(hnumber.le (by decide)).2, hpos (.inl htype)⟩,
        fun _ hne => absurd hnum hne, fun hendpoint => ?_⟩
      rw [htype] at hendpoint
      exact absurd hendpoint (by decide)
  | endpoint htype =>
      have hlen := hpos (.inr htype)
      have hcopy := hreads _ (List.mem_cons_of_mem _ (List.mem_singleton_self _))
      have hdesc := hwrites _ (List.mem_cons_of_mem _ (List.mem_cons_self ..))
      have hsome := isSome_ifno (by decide) Nat.one_ne_zero
        (hwrites _ (List.mem_cons_self ..))
      have hnot : buffer (s.index + 1) ≠ 4 := by
        rw [htype]
        decide
      refine ⟨hheader, fun h4 => absurd h4 hnot, fun h4 => absurd h4 hnot,
        fun _ => ⟨hlen, hsome, ?_, (hcopy.le hlen).2, (hdesc.le hlen).2⟩⟩
      obtain ⟨i, hi⟩ := Option.isSome_iff_exists.mp hsome
      have hlast := hinv.last i hi
      obtain ⟨s', hs'⟩ : ∃ s', (newEndpoint buffer s).next = some s' := ⟨_, rfl⟩
      have hge := le_ifDesc hsome
      have hnum : s'.dev noOfIf = s.dev noOfIf :=
        newEndpoint_dev hs' (by omega) (by omega)
      have hcount := (hnext s' hs').2 i (by rw [hnum]; omega)
      rw [← hi, newEndpoint_noOfEp hs'] at hcount
      refine lt_of_succ_le ?_ (by decide) hcount
      rw [hi]
      exact hcounts.2 i (by omega)
  | stop h4 h5 =>
      exact ⟨hheader, fun h => absurd h h4, fun h => absurd h h4, fun h => absurd h h5⟩
  | skip h4 h5 =>
      exact ⟨hheader, fun h => absurd h h4, fun h => absurd h h4, fun h => absurd h h5⟩

namespace PassOk

/-- What a pass the loop can take reads and writes. -/
theorem within (hok : PassOk buffer s) (hinv : ParseInv s)
    (hcounts : CountsFit s.dev) :
    (∀ r ∈ (parsePass buffer s).reads, r.Within 0 usbBufsiz) ∧
      ∀ w ∈ (parsePass buffer s).writes, w.Within configAt configEnd := by
  have hheader := hok.header
  have hnoOfIf : noOfIf = configAt + 9 := rfl
  have hend : configEnd = configAt + 10 + 8 * interfaceSize := rfl
  have hsize : interfaceSize = 156 := rfl
  have hcase := parsePass_case buffer s
  generalize parsePass buffer s = pass at hcase
  cases hcase with
  | fresh htype hnum =>
      obtain ⟨hnumber, hlen⟩ := hok.interface htype
      obtain ⟨hroom, hcopy, hdesc⟩ := hok.fresh htype hnum
      have hge : noOfIf < ifDesc (some (s.dev noOfIf).toNat) := le_ifDesc rfl
      have hle : ifDesc (some (s.dev noOfIf).toNat) + interfaceSize ≤ configEnd :=
        ifDesc_add hroom
      simp only [newInterface, Span.Within, List.forall_mem_cons, List.not_mem_nil,
        false_implies, implies_true, and_true, noOfEp, numAltsetting]
      omega
  | alternate htype hnum =>
      obtain ⟨hnumber, hlen⟩ := hok.interface htype
      have hsome := hinv.curr (by rw [← hnum]; rfl)
      have hge := le_ifDesc hsome
      have hle := hinv.fits hcounts hsome
      simp only [alternateSetting, Span.Within, List.forall_mem_cons, List.not_mem_nil,
        false_implies, implies_true, and_true, numAltsetting]
      omega
  | endpoint htype =>
      obtain ⟨hlen, hsome, hroom, hcopy, hdesc⟩ := hok.endpoint htype
      have hge := le_ifDesc hsome
      have hle := hinv.fits hcounts hsome
      have hslot := epDesc_le hroom
      simp only [newEndpoint, Span.Within, List.forall_mem_cons, List.not_mem_nil,
        false_implies, implies_true, and_true, noOfEp] at hroom hslot hdesc ⊢
      simp only [endpointSize, epDesc] at hslot hdesc ⊢
      omega
  | stop =>
      simp only [Span.Within, List.forall_mem_cons, List.not_mem_nil, false_implies,
        implies_true, and_true]
      omega
  | skip =>
      simp only [Span.Within, List.forall_mem_cons, List.not_mem_nil, false_implies,
        implies_true, and_true]
      omega

/-- A pass the loop can take records no more than there is room for. -/
theorem countsFit (hok : PassOk buffer s) (hinv : ParseInv s)
    (hcounts : CountsFit s.dev) (hnext : (parsePass buffer s).next = some s') :
    CountsFit s'.dev := by
  have hfew := hcounts.1
  simp only [usbMaxinterfaces] at hfew
  have hsize : interfaceSize = 156 := rfl
  have hcase := parsePass_case buffer s
  generalize parsePass buffer s = pass at hcase hnext
  cases hcase with
  | fresh htype hnum =>
      have hroom := (hok.fresh htype hnum).1
      have hge : noOfIf < ifDesc (some (s.dev noOfIf).toNat) := le_ifDesc rfl
      constructor
      · rw [newInterface_noOfIf hnext, toNat_succ (by omega)]
        exact hroom
      · intro i hi
        rw [newInterface_noOfIf hnext, toNat_succ (by omega)] at hi
        rcases Nat.lt_succ_iff_lt_or_eq.mp hi with hlt | rfl
        · have hbelow := ifDesc_add hlt
          have habove : noOfIf < ifDesc (some i) := le_ifDesc rfl
          rw [newInterface_dev hnext (by simp only [noOfEp]; omega) (by omega)]
          exact hcounts.2 i hlt
        · rw [newInterface_noOfEp hnext]
          exact Nat.zero_le _
  | alternate htype hnum =>
      have hge := le_ifDesc (hinv.curr (by rw [← hnum]; rfl))
      rw [CountsFit, alternateSetting_dev hnext (by omega)]
      refine ⟨hcounts.1, fun i hi => ?_⟩
      rw [alternateSetting_dev hnext]
      · exact hcounts.2 i hi
      · obtain ⟨j, hj⟩ := Option.isSome_iff_exists.mp
          (hinv.curr (by rw [← hnum]; rfl))
        rw [hj]
        simp only [noOfEp, numAltsetting]
        rcases lt_trichotomy i j with hlt | rfl | hlt
        · have := ifDesc_add hlt
          omega
        · omega
        · have := ifDesc_add hlt
          omega
  | endpoint htype =>
      obtain ⟨-, hsome, hroom, -⟩ := hok.endpoint htype
      have hge := le_ifDesc hsome
      rw [CountsFit, newEndpoint_dev hnext (by omega) (by omega)]
      refine ⟨hcounts.1, fun i hi => ?_⟩
      obtain ⟨j, hj⟩ := Option.isSome_iff_exists.mp hsome
      have hlast := hinv.last j hj
      rcases Nat.lt_or_eq_of_le (show i ≤ j by omega) with hlt | rfl
      · have := ifDesc_add hlt
        rw [newEndpoint_dev hnext (by rw [hj]; simp only [noOfEp]; omega)
          (by rw [hj]; omega)]
        exact hcounts.2 i hi
      · have hcount := newEndpoint_noOfEp hnext
        rw [hj] at hcount hroom
        simp only [usbMaxendpoints] at hroom ⊢
        rw [hcount, toNat_succ (by omega)]
        exact hroom
  | stop => cases hnext
  | skip =>
      cases hnext
      exact hcounts

end PassOk

/-! ## The loop -/

theorem LoopOk.pass (h : ∀ rounds, LoopOk buffer rounds s)
    (hmore : s.index + 1 < totalLength s.dev) : PassOk buffer s := (h 1 hmore).1

theorem LoopOk.next (h : ∀ rounds, LoopOk buffer rounds s)
    (hmore : s.index + 1 < totalLength s.dev)
    (hnext : (parsePass buffer s).next = some s') (rounds : ℕ) :
    LoopOk buffer rounds s' := (h (rounds + 1) hmore).2 s' hnext

/-- A pass that goes on moves past its descriptor. -/
theorem PassOk.index_lt (hok : PassOk buffer s)
    (hnext : (parsePass buffer s).next = some s') : s.index < s'.index := by
  rw [parsePass_index hnext]
  have hcase := parsePass_case buffer s
  generalize parsePass buffer s = pass at hcase hnext
  cases hcase with
  | fresh htype => have := (hok.interface htype).2; omega
  | alternate htype => have := (hok.interface htype).2; omega
  | endpoint htype => have := (hok.endpoint htype).1; omega
  | stop => cases hnext
  | skip _ _ hlen => omega

/-- The loop ends, if every descriptor is one it can take. -/
theorem parseLoop_ends (hok : ∀ rounds, LoopOk buffer rounds s) (hinv : ParseInv s)
    (hcounts : CountsFit s.dev) :
    ∃ rounds, (parseLoop buffer rounds s).ret.isSome := by
  induction hleft : totalLength s.dev - s.index using Nat.strong_induction_on
    generalizing s with
  | _ left ih =>
      by_cases hmore : s.index + 1 < totalLength s.dev
      · have hpass := LoopOk.pass hok hmore
        have hwrites := (hpass.within hinv hcounts).2
        cases hnext : (parsePass buffer s).next with
        | none => exact ⟨1, by rw [parseLoop_stop hmore hnext]; rfl⟩
        | some s' =>
            have htotal := parsePass_totalLength hnext hwrites
            have hindex := hpass.index_lt hnext
            obtain ⟨rounds, hret⟩ := ih _ (by omega) (LoopOk.next hok hmore hnext)
              (hinv.pass hcounts hwrites hnext) (hpass.countsFit hinv hcounts hnext) rfl
            exact ⟨rounds + 1, by rw [parseLoop_next hmore hnext]; exact hret⟩
      · exact ⟨1, by rw [parseLoop_done hmore]; rfl⟩

/-- What the loop touches and records, if every descriptor is one it can take. -/
theorem parseLoop_within {rounds : ℕ} (hok : ∀ rounds, LoopOk buffer rounds s)
    (hinv : ParseInv s) (hcounts : CountsFit s.dev) :
    (∀ r ∈ (parseLoop buffer rounds s).reads, r.Within 0 usbBufsiz) ∧
      (∀ w ∈ (parseLoop buffer rounds s).writes, w.Within configAt configEnd) ∧
      CountsFit (parseLoop buffer rounds s).dev := by
  induction rounds generalizing s with
  | zero => exact ⟨by simp [parseLoop], by simp [parseLoop], hcounts⟩
  | succ rounds ih =>
      by_cases hmore : s.index + 1 < totalLength s.dev
      · have hpass := LoopOk.pass hok hmore
        obtain ⟨hreads, hwrites⟩ := hpass.within hinv hcounts
        cases hnext : (parsePass buffer s).next with
        | none =>
            rw [parseLoop_stop hmore hnext]
            exact ⟨hreads, hwrites, hcounts⟩
        | some s' =>
            obtain ⟨hreads', hwrites', hcounts'⟩ := ih (LoopOk.next hok hmore hnext)
              (hinv.pass hcounts hwrites hnext) (hpass.countsFit hinv hcounts hnext)
            rw [parseLoop_next hmore hnext]
            exact ⟨fun r hr => (List.mem_append.mp hr).elim (hreads r) (hreads' r),
              fun w hw => (List.mem_append.mp hw).elim (hwrites w) (hwrites' w), hcounts'⟩
      · rw [parseLoop_done hmore]
        exact ⟨by simp, by simp, hcounts⟩

/-- The loop is safe exactly when every descriptor is one it can take. -/
theorem parseLoop_safe_iff (hinv : ParseInv s) :
    RunSafe (fun rounds => parseLoop buffer rounds s) ↔
      CountsFit s.dev ∧ ∀ rounds, LoopOk buffer rounds s := by
  constructor
  · intro h
    refine ⟨h.countsFit, fun rounds => ?_⟩
    induction rounds generalizing s with
    | zero => trivial
    | succ rounds ih =>
        intro hmore
        refine ⟨h.passOk hinv hmore, fun s' hnext => ?_⟩
        exact ih (hinv.pass h.countsFit (h.passWrites hmore) hnext) (h.next hmore hnext)
  · rintro ⟨hcounts, hok⟩
    exact ⟨parseLoop_ends hok hinv hcounts,
      fun rounds => (parseLoop_within hok hinv hcounts).1,
      fun rounds => (parseLoop_within hok hinv hcounts).2.1,
      fun rounds _ => (parseLoop_within hok hinv hcounts).2.2⟩

theorem ParseInv.start (buffer dev : Memory UInt8) :
    ParseInv (ConfigParse.start buffer dev) :=
  ⟨fun i hi => (by cases hi), fun h => (by cases h)⟩

theorem countsFit_start (buffer dev : Memory UInt8) :
    CountsFit (ConfigParse.start buffer dev).dev := by
  have hnone : (ConfigParse.start buffer dev).dev noOfIf = 0 := by
    simp only [ConfigParse.start, store_same]
  rw [CountsFit, hnone]
  exact ⟨by decide, fun i hi => absurd hi (Nat.not_lt_zero i)⟩

/-- The header of the configuration is copied inside the buffer and the
configuration. -/
theorem within_header (len : UInt8) :
    (∀ r ∈ ([⟨1, 1⟩, ⟨0, 1⟩, ⟨0, len.toNat⟩] : List Span), r.Within 0 usbBufsiz) ∧
      ∀ w ∈ ([⟨configAt, len.toNat⟩, ⟨configAt + 2, 2⟩, ⟨noOfIf, 1⟩] : List Span),
        w.Within configAt configEnd := by
  have hlen := len.toNat_lt
  have hend : configEnd = configAt + 1258 := rfl
  simp only [Span.Within, List.forall_mem_cons, List.not_mem_nil, false_implies,
    implies_true, and_true, usbBufsiz, noOfIf]
  omega

/-- `usb_parse_config` is safe exactly when every descriptor behind the header is
one the loop can take. -/
theorem usbParseConfig_safe_iff (buffer dev : Memory UInt8) :
    RunSafe (usbParseConfig buffer dev) ↔
      (buffer 1 = 2 → ∀ rounds, LoopOk buffer rounds (ConfigParse.start buffer dev)) := by
  by_cases htype : buffer 1 = 2
  · have hrun : usbParseConfig buffer dev = fun rounds =>
        (parseLoop buffer rounds (ConfigParse.start buffer dev)).after
          { reads := [⟨1, 1⟩, ⟨0, 1⟩, ⟨0, (buffer 0).toNat⟩]
            writes := [⟨configAt, (buffer 0).toNat⟩, ⟨configAt + 2, 2⟩, ⟨noOfIf, 1⟩]
            next := none } := by
      funext rounds
      rw [usbParseConfig, if_neg (not_not.mpr htype)]
    have hsafe : RunSafe (usbParseConfig buffer dev) ↔ RunSafe fun rounds =>
        parseLoop buffer rounds (ConfigParse.start buffer dev) := by
      rw [hrun]
      have hheader := within_header (buffer 0)
      constructor
      · exact fun h => ⟨h.ends, fun rounds r hr => h.reads rounds r (List.mem_append_right _ hr),
          fun rounds w hw => h.writes rounds w (List.mem_append_right _ hw), h.counts⟩
      · intro h
        refine ⟨h.ends, fun rounds r hr => ?_, fun rounds w hw => ?_, h.counts⟩
        · exact (List.mem_append.mp hr).elim (hheader.1 r) (h.reads rounds r)
        · exact (List.mem_append.mp hw).elim (hheader.2 w) (h.writes rounds w)
    rw [hsafe, parseLoop_safe_iff (ParseInv.start buffer dev)]
    exact ⟨fun h _ => h.2, fun h => ⟨countsFit_start buffer dev, h htype⟩⟩
  · refine iff_of_true ?_ fun h => absurd h htype
    have hrun : usbParseConfig buffer dev = fun _ => ⟨some (-1), dev, [⟨1, 1⟩], []⟩ := by
      funext rounds
      rw [usbParseConfig, if_pos htype]
    rw [hrun]
    refine ⟨⟨0, rfl⟩, fun _ r hr => ?_, fun _ w hw => (nomatch hw),
      fun _ h => absurd rfl h⟩
    rw [List.mem_singleton.mp hr]
    exact .inr ⟨Nat.zero_le _, by decide⟩

end TateFirmware.Usb
