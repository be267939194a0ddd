import TateFirmware.Net.BootpOptions

/-!
# Packets whose options are scanned right

Each scanner is followed from a place of the packet on: it returns, stays in the packet
and processes what the grammar yields exactly if the options from there on are
`VendorInside`, `DhcpInside` or `MessageInside`.
-/

namespace TateFirmware.Net

open LibGeneric Support

variable {m : Memory UInt8} {len : ℕ}

/-! ## Scanning -/

section Scanning

variable {σ : Type} {round : σ → Reading (σ ⊕ σ)} {seen : σ → List ℕ} {s s' : σ}
  {options : List ℕ}

/-- The options processed by a loop from a state. -/
abbrev ScansFrom (round : σ → Reading (σ ⊕ σ)) (len : ℕ) (seen : σ → List ℕ) (s : σ)
    (options : List ℕ) : Prop :=
  Scans (fun rounds => .loop round rounds s) len seen options

theorem scansFrom_end (h : (round s).value = some (.inl s')) :
    ScansFrom round len seen s options ↔ (round s).Within len ∧ seen s' = options := by
  constructor
  · rintro ⟨a, hcompletes, ha⟩
    obtain ⟨hwithin, hend | ⟨_, hnext, _⟩⟩ := Reading.completes_loop.mp hcompletes
    · obtain rfl : s' = a := Sum.inl.inj (Option.some.inj (h.symm.trans hend))
      exact ⟨hwithin, ha⟩
    · cases h.symm.trans hnext
  · rintro ⟨hwithin, ha⟩
    exact ⟨s', Reading.completes_loop.mpr ⟨hwithin, Or.inl h⟩, ha⟩

theorem scansFrom_next (h : (round s).value = some (.inr s')) :
    ScansFrom round len seen s options ↔
      (round s).Within len ∧ ScansFrom round len seen s' options := by
  constructor
  · rintro ⟨a, hcompletes, ha⟩
    obtain ⟨hwithin, hend | ⟨_, hnext, hrest⟩⟩ := Reading.completes_loop.mp hcompletes
    · cases h.symm.trans hend
    · obtain rfl := Sum.inr.inj (Option.some.inj (h.symm.trans hnext))
      exact ⟨hwithin, a, hrest, ha⟩
  · rintro ⟨hwithin, a, hrest, ha⟩
    exact ⟨a, Reading.completes_loop.mpr ⟨hwithin, Or.inr ⟨s', h, hrest⟩⟩, ha⟩

/-- Where rounds only add to what is processed, so does the loop. -/
theorem ScansFrom.adds
    (hround : ∀ s next, (round s).value = some next →
      seen s <+: Sum.elim seen seen next)
    (h : ScansFrom round len seen s options) : seen s <+: options := by
  obtain ⟨a, hcompletes, rfl⟩ := h
  have hkept : ∀ s' next, seen s <+: seen s' → (round s').value = some next →
      Sum.elim (fun a => seen s <+: seen a) (fun s' => seen s <+: seen s') next := by
    intro s' next hs hnext
    have hadds := hs.trans (hround s' next hnext)
    cases next <;> exact hadds
  exact hcompletes.loop_inv hkept List.prefix_rfl

end Scanning

/-! ## `DhcpOptionsProcess` -/

theorem readDhcpOption_value (popt : ℕ) (m : Memory UInt8) (st : Dhcp) :
    (readDhcpOption popt m st).value = some (dhcpOption popt m st) := by
  unfold readDhcpOption dhcpOption
  simp only [Reading.value_bind, Reading.value_byte, Option.bind_some]
  split_ifs with h1 h3 h6 h12 h17 h51 h54 h67 hcopy
  all_goals first | rfl | skip
  -- option 67 reads the boot file name of the packet first
  · rw [Reading.value_bind, Reading.value_byte, Option.bind_some, if_pos hcopy]
    rfl
  · rw [Reading.value_bind, Reading.value_byte, Option.bind_some, if_neg hcopy]
    rfl

theorem truncateSz_le (maxlen curlen : ℕ) : truncateSz maxlen curlen ≤ curlen := by
  unfold truncateSz
  split <;> omega

/-- What a complete option reads is in the packet, but for addresses in options that
are too short for them. -/
theorem readDhcpOption_within {popt : ℕ} {st : Dhcp} (hpopt : bpVend + 4 ≤ popt)
    (hcomplete : behindOption m popt ≤ len) :
    (readDhcpOption popt m st).Within len ↔ (m popt ∈ fourByteTypes → popt + 6 ≤ len) := by
  have hname : ∀ maxlen, (Reading.bytes m (popt + 2)
      (truncateSz maxlen (m (popt + 1)).toNat)).Within len := by
    intro maxlen
    have hle := truncateSz_le maxlen (m (popt + 1)).toNat
    refine Reading.within_bytes m |>.mpr (Or.inr ?_)
    unfold behindOption at hcomplete
    omega
  have hbytes : popt + 1 < len ∧ popt < len ∧ bpFile < len := by
    unfold behindOption at hcomplete
    unfold bpFile bpVend at *
    omega
  unfold readDhcpOption
  simp only [Reading.within_bind, Reading.within_byte, Reading.value_byte,
    Option.some.injEq, forall_eq', hbytes, true_and]
  split_ifs with h1 h3 h6 h12 h17 h51 h54 h67
  · simp [fourByteTypes, h1]
  · simp [fourByteTypes, h3]
  · simp [fourByteTypes, h6]
  · simpa [fourByteTypes, h12] using hname hostNameSize
  · simpa [fourByteTypes, h17] using hname rootPathSize
  · simp [fourByteTypes, h51]
  · simp [fourByteTypes, h54]
  · rw [Reading.within_bind, Reading.within_byte, Reading.value_byte]
    simp only [Option.some.injEq, forall_eq', hbytes, true_and]
    split_ifs
    · simpa [fourByteTypes, h67] using hname bpFileSize
    · simp [fourByteTypes, h67]
  · simp [fourByteTypes, *]

/-- One round at an option. -/
theorem dhcpRound_option (len : ℕ) {last : ℕ} {s : DhcpScan} (hlast : s.popt < last)
    (hend : s.m s.popt ≠ 0xff) :
    ((dhcpRound last s).Within len ↔
      s.popt < len ∧ (readDhcpOption s.popt s.m s.st).Within len) ∧
    (dhcpRound last s).value = some (.inr ⟨behindOption s.m s.popt,
      (dhcpOption s.popt s.m s.st).2, (dhcpOption s.popt s.m s.st).1,
      s.seen ++ [s.popt]⟩) := by
  have hvalue := readDhcpOption_value s.popt s.m s.st
  simp only [dhcpRound, if_pos hlast, Reading.within_bind, Reading.within_byte,
    Reading.value_bind, Reading.value_byte, Option.some.injEq, forall_eq',
    Option.bind_some, if_neg hend, hvalue, Reading.within_pure, and_true,
    Reading.value_pure, and_self]

theorem dhcpRound_endMark (len : ℕ) {last : ℕ} {s : DhcpScan} (hlast : s.popt < last)
    (hend : s.m s.popt = 0xff) :
    ((dhcpRound last s).Within len ↔ s.popt < len) ∧
    (dhcpRound last s).value = some (.inl s) := by
  simp [dhcpRound, hlast, hend]

theorem dhcpRound_last (len : ℕ) {last : ℕ} {s : DhcpScan} (hlast : last ≤ s.popt) :
    (dhcpRound last s).Within len ∧ (dhcpRound last s).value = some (.inl s) := by
  simp [dhcpRound, Nat.not_lt.mpr hlast]

theorem dhcpRound_seen (last : ℕ) (s : DhcpScan) (next : DhcpScan ⊕ DhcpScan)
    (h : (dhcpRound last s).value = some next) :
    s.seen <+: Sum.elim DhcpScan.seen DhcpScan.seen next := by
  by_cases hlast : s.popt < last
  · by_cases hend : s.m s.popt = 0xff
    · rw [(dhcpRound_endMark 0 hlast hend).2] at h
      cases h
      exact List.prefix_rfl
    · rw [(dhcpRound_option 0 hlast hend).2] at h
      cases h
      exact List.prefix_append _ _
  · rw [(dhcpRound_last 0 (Nat.le_of_not_lt hlast)).2] at h
    cases h
    exact List.prefix_rfl

theorem behindOption_congr {m' : Memory UInt8} {p : ℕ}
    (h : ∀ k, bpVend ≤ k → m' k = m k) (hp : bpVend ≤ p) :
    behindOption m' p = behindOption m p := by
  rw [behindOption, behindOption, h (p + 1) (by omega)]

/-- `DhcpOptionsProcess` from a place on; the packet may have got a boot file name. -/
theorem dhcpScan_iff (s : DhcpScan) (hpopt : bpVend + 4 ≤ s.popt)
    (hm : ∀ k, bpVend ≤ k → s.m k = m k) :
    ScansFrom (dhcpRound (bpVend + 4 + bootpHdrSize)) len DhcpScan.seen s
        (s.seen ++ rfcOptions m len s.popt) ↔ DhcpInside m len s.popt := by
  induction hleft : bpVend + 4 + bootpHdrSize - s.popt using Nat.strong_induction_on
    generalizing s with
  | h left ih =>
  have hvend : bpVend ≤ s.popt := by omega
  have hbehind := behindOption_congr hm hvend
  have hmoves := lt_behindOption m s.popt
  by_cases hlast : s.popt < bpVend + 4 + bootpHdrSize
  swap
  · obtain ⟨hwithin, hvalue⟩ := dhcpRound_last len (Nat.le_of_not_lt hlast)
    rw [scansFrom_end hvalue, List.self_eq_append_right]
    constructor
    · exact fun h => .last (Nat.le_of_not_lt hlast) h.2
    · intro h
      cases h with
      | last _ hnone => exact ⟨hwithin, hnone⟩
      | endMark hp => exact absurd hp hlast
      | option hp => exact absurd hp hlast
  by_cases hend : m s.popt = 0xff
  · obtain ⟨hwithin, hvalue⟩ :=
      dhcpRound_endMark len hlast ((hm s.popt hvend).trans hend)
    rw [scansFrom_end hvalue, hwithin, rfcOptions_endMark hend, List.append_nil]
    constructor
    · exact fun h => .endMark hlast h.1 hend
    · intro h
      cases h with
      | last hp => omega
      | endMark _ hp => exact ⟨hp, rfl⟩
      | option _ hne => exact absurd hend hne
  obtain ⟨hwithin, hvalue⟩ :=
    dhcpRound_option len hlast (fun h => hend ((hm s.popt hvend).symm.trans h))
  have hrest := ih (bpVend + 4 + bootpHdrSize - behindOption s.m s.popt) (by omega)
    ⟨behindOption s.m s.popt, (dhcpOption s.popt s.m s.st).2,
      (dhcpOption s.popt s.m s.st).1, s.seen ++ [s.popt]⟩
    (by change bpVend + 4 ≤ behindOption s.m s.popt; omega)
    (fun k hk => (dhcpOption_mem s.popt s.m s.st (Or.inr hk)).trans (hm k hk)) rfl
  simp only [hbehind] at hrest hvalue
  have hreads : behindOption m s.popt ≤ len →
      ((readDhcpOption s.popt s.m s.st).Within len ↔
        (m s.popt ∈ fourByteTypes → s.popt + 6 ≤ len)) := by
    intro hcomplete
    rw [readDhcpOption_within hpopt (hbehind.le.trans hcomplete), hm s.popt hvend]
  rw [scansFrom_next hvalue, hwithin]
  constructor
  · rintro ⟨⟨_, hread⟩, hscans⟩
    obtain ⟨rest, hseen⟩ := hscans.adds (dhcpRound_seen _)
    rw [List.append_assoc] at hseen
    obtain ⟨hpad, hcomplete, rfl⟩ :=
      option_of_rfcOptions_cons hend (List.append_cancel_left hseen).symm
    rw [← hseen, ← List.append_assoc] at hscans
    exact .option hlast hend hpad hcomplete ((hreads hcomplete).mp hread)
      (hrest.mp hscans)
  · intro h
    cases h with
    | endMark _ _ hmark => exact absurd hmark hend
    | last hge => omega
    | option _ _ hpad hcomplete hfour hinside =>
        refine ⟨⟨by omega, (hreads hcomplete).mpr hfour⟩, ?_⟩
        rw [rfcOptions_option hend hpad hcomplete,
          List.append_cons s.seen s.popt (rfcOptions m len _)]
        exact hrest.mpr hinside

/-! ## `DhcpMessageType` -/

theorem messageRound_endMark (len : ℕ) {s : MessageScan} (hend : m s.popt = 0xff) :
    ((messageRound m s).Within len ↔ s.popt < len) ∧
    (messageRound m s).value = some (.inl s) := by
  simp [messageRound, hend]

theorem messageRound_type (len : ℕ) {s : MessageScan} (htype : m s.popt = 53) :
    ((messageRound m s).Within len ↔ s.popt < len ∧ s.popt + 2 < len) ∧
    (messageRound m s).value =
      some (.inl ⟨s.popt, some (m (s.popt + 2)), s.seen ++ [s.popt]⟩) := by
  simp [messageRound, htype]

theorem messageRound_option (len : ℕ) {s : MessageScan} (hend : m s.popt ≠ 0xff)
    (htype : m s.popt ≠ 53) :
    ((messageRound m s).Within len ↔ s.popt < len ∧ s.popt + 1 < len) ∧
    (messageRound m s).value =
      some (.inr ⟨behindOption m s.popt, none, s.seen ++ [s.popt]⟩) := by
  simp [messageRound, hend, htype]

theorem messageRound_seen (m : Memory UInt8) (s : MessageScan)
    (next : MessageScan ⊕ MessageScan) (h : (messageRound m s).value = some next) :
    s.seen <+: Sum.elim MessageScan.seen MessageScan.seen next := by
  by_cases hend : m s.popt = 0xff
  · rw [(messageRound_endMark 0 hend).2] at h
    cases h
    exact List.prefix_rfl
  by_cases htype : m s.popt = 53
  · rw [(messageRound_type 0 htype).2] at h
    cases h
    exact List.prefix_append _ _
  · rw [(messageRound_option 0 hend htype).2] at h
    cases h
    exact List.prefix_append _ _

/-- What is first of the options up to the message type. -/
theorem cons_of_upToMessageType {p : ℕ} {options rest : List ℕ}
    (h : upToMessageType m options = p :: rest) :
    ∃ options', options = p :: options' ∧
      (m p ≠ 53 → rest = upToMessageType m options') := by
  cases options with
  | nil => cases h
  | cons q options' =>
      unfold upToMessageType at h
      split at h
      next hq =>
        obtain rfl := (List.cons.inj h).1
        exact ⟨options', rfl, fun hne => absurd hq hne⟩
      next hq =>
        obtain ⟨rfl, rfl⟩ := List.cons.inj h
        exact ⟨options', rfl, fun _ => rfl⟩

/-- `DhcpMessageType` from a place on. -/
theorem messageScan_iff (s : MessageScan) :
    ScansFrom (messageRound m) len MessageScan.seen s
        (s.seen ++ upToMessageType m (rfcOptions m len s.popt)) ↔
      MessageInside m len s.popt := by
  induction hleft : len - s.popt using Nat.strong_induction_on generalizing s with
  | h left ih =>
  have hmoves := lt_behindOption m s.popt
  by_cases hend : m s.popt = 0xff
  · obtain ⟨hwithin, hvalue⟩ := messageRound_endMark len hend
    rw [scansFrom_end hvalue, hwithin, rfcOptions_endMark hend, upToMessageType,
      List.append_nil]
    constructor
    · exact fun h => .endMark h.1 hend
    · intro h
      cases h with
      | endMark hp => exact ⟨hp, rfl⟩
      | messageType htype => exact absurd (hend.symm.trans htype) (by decide)
      | option hne => exact absurd hend hne
  by_cases htype : m s.popt = 53
  · have hpad : m s.popt ≠ 0 := fun h => absurd (h.symm.trans htype) (by decide)
    obtain ⟨hwithin, hvalue⟩ := messageRound_type len htype
    rw [scansFrom_end hvalue, hwithin, List.append_cancel_left_eq]
    constructor
    · rintro ⟨⟨_, hp⟩, hseen⟩
      obtain ⟨_, hcons, _⟩ := cons_of_upToMessageType hseen.symm
      exact .messageType htype (option_of_rfcOptions_cons hend hcons).2.1 hp
    · intro h
      cases h with
      | endMark _ hmark => exact absurd hmark hend
      | messageType _ hcomplete hp =>
          refine ⟨⟨by omega, hp⟩, ?_⟩
          rw [rfcOptions_option hend hpad hcomplete, upToMessageType, if_pos htype]
      | option _ _ hne => exact absurd htype hne
  obtain ⟨hwithin, hvalue⟩ := messageRound_option len hend htype
  rw [scansFrom_next hvalue, hwithin]
  constructor
  · rintro ⟨⟨hp, _⟩, hscans⟩
    obtain ⟨rest, hseen⟩ := hscans.adds (messageRound_seen m)
    rw [List.append_assoc] at hseen
    obtain ⟨options, hcons, hrest⟩ :=
      cons_of_upToMessageType (List.append_cancel_left hseen).symm
    obtain ⟨hpad, hcomplete, rfl⟩ := option_of_rfcOptions_cons hend hcons
    obtain rfl := hrest htype
    rw [← hseen, ← List.append_assoc] at hscans
    exact .option hend hpad htype hcomplete
      ((ih (len - behindOption m s.popt) (by omega) _ rfl).mp hscans)
  · intro h
    cases h with
    | endMark _ hmark => exact absurd hmark hend
    | messageType heq => exact absurd heq htype
    | option _ hpad _ hcomplete hinside =>
        refine ⟨by omega, ?_⟩
        rw [rfcOptions_option hend hpad hcomplete, upToMessageType, if_neg htype,
          List.append_cons s.seen s.popt (upToMessageType m _)]
        exact (ih (len - behindOption m s.popt) (by omega)
          ⟨behindOption m s.popt, none, s.seen ++ [s.popt]⟩ rfl).mpr hinside

/-! ## `BootpVendorProcess` -/

theorem fieldIP_within {ext : ℕ} {ip : List UInt8} :
    (fieldIP m ext ip).Within len ↔ (ip = ipUnset → ext + 6 ≤ len) := by
  unfold fieldIP
  split_ifs with hip <;> simp [hip, Nat.add_assoc]

theorem fieldName_within {ext : ℕ} (hcomplete : behindOption m ext ≤ len) (maxlen : ℕ)
    (name : List UInt8) :
    (fieldName m ext maxlen (m (ext + 1)).toNat name).Within len := by
  unfold fieldName
  split_ifs
  · have hle := truncateSz_le maxlen (m (ext + 1)).toNat
    refine (Reading.within_bytes m).mpr (Or.inr ?_)
    unfold behindOption at hcomplete
    omega
  · exact Reading.within_pure len _

theorem fieldIP_value (m : Memory UInt8) (ext : ℕ) (ip : List UInt8) :
    ∃ ip', (fieldIP m ext ip).value = some ip' := by
  unfold fieldIP
  split_ifs <;> exact ⟨_, rfl⟩

theorem fieldName_value (m : Memory UInt8) (ext maxlen size : ℕ) (name : List UInt8) :
    ∃ name', (fieldName m ext maxlen size name).value = some name' := by
  unfold fieldName
  split_ifs <;> exact ⟨_, rfl⟩

theorem bootpVendorFieldProcess_value (m : Memory UInt8) (ext : ℕ) (st : BootpParams) :
    ∃ st', (bootpVendorFieldProcess m ext st).value = some st' := by
  have hfield : ∀ (x : Reading (List UInt8)) (f : List UInt8 → BootpParams),
      (∃ a, x.value = some a) →
        ∃ st', (x >>= fun a => (pure (f a) : Reading BootpParams)).value = some st' := by
    rintro x f ⟨a, ha⟩
    exact ⟨f a, by simp [ha]⟩
  unfold bootpVendorFieldProcess
  simp only [Reading.value_bind, Reading.value_byte, Option.bind_some]
  split_ifs
  all_goals first
    | exact ⟨_, rfl⟩
    | exact hfield _ _ (fieldIP_value _ _ _)
    | exact hfield _ _ (fieldName_value _ _ _ _ _)

theorem bootpVendorFieldProcess_within {ext : ℕ} {st : BootpParams}
    (hcomplete : behindOption m ext ≤ len) :
    (bootpVendorFieldProcess m ext st).Within len ↔
      (TakesIP m ext st → ext + 6 ≤ len) := by
  have hbytes : ext + 1 < len ∧ ext < len := by
    unfold behindOption at hcomplete
    omega
  have hname := fieldName_within hcomplete
  have hsize : ∀ n : UInt8, m (ext + 1) = n → ext + 2 + n.toNat ≤ len := by
    rintro n rfl
    unfold behindOption at hcomplete
    omega
  unfold bootpVendorFieldProcess TakesIP
  simp only [Reading.within_bind, Reading.within_byte, Reading.value_byte,
    Option.some.injEq, forall_eq', hbytes, true_and]
  split_ifs with h1 h3 h6 h12 h13 hsize2 hsize4 h17 h40
  · simp [h1, fieldIP_within]
  · simp [h3, fieldIP_within]
  · simp [h6, fieldIP_within]
  · simp [h12, hname]
  · simpa [h13] using hsize 2 hsize2
  · simpa [h13] using hsize 4 hsize4
  · simp [h13]
  · simp [h17, hname]
  · simp [h40, hname]
  · simp [*]

section Rounds

variable {last : ℕ} {s : VendorScan}

theorem vendorRound_last (len : ℕ) (hlast : last ≤ s.ext) :
    (vendorRound m last s).Within len ∧ (vendorRound m last s).value = some (.inl s) := by
  simp [vendorRound, Nat.not_lt.mpr hlast]

theorem vendorRound_endMark (len : ℕ) (hlast : s.ext < last) (hend : m s.ext = 0xff) :
    ((vendorRound m last s).Within len ↔ s.ext < len) ∧
    (vendorRound m last s).value = some (.inl s) := by
  simp [vendorRound, hlast, hend]

theorem vendorRound_pad (len : ℕ) (hlast : s.ext < last) (hpad : m s.ext = 0) :
    ((vendorRound m last s).Within len ↔ s.ext < len) ∧
    (vendorRound m last s).value = some (.inr { s with ext := s.ext + 1 }) := by
  simp [vendorRound, hlast, hpad]

theorem vendorRound_leap (len : ℕ) (hlast : s.ext < last) (hend : m s.ext ≠ 0xff)
    (hpad : m s.ext ≠ 0) (hleap : last < behindOption m s.ext) :
    ((vendorRound m last s).Within len ↔ s.ext < len ∧ s.ext + 1 < len) ∧
    (vendorRound m last s).value =
      some (.inr { s with ext := behindOption m s.ext }) := by
  simp [vendorRound, hlast, hend, hpad, Nat.not_le.mpr hleap]

theorem vendorRound_option (len : ℕ) {st : BootpParams} (hlast : s.ext < last)
    (hend : m s.ext ≠ 0xff) (hpad : m s.ext ≠ 0) (hbehind : behindOption m s.ext ≤ last)
    (hst : (bootpVendorFieldProcess m s.ext s.st).value = some st) :
    ((vendorRound m last s).Within len ↔ s.ext < len ∧ s.ext + 1 < len ∧
      (bootpVendorFieldProcess m s.ext s.st).Within len) ∧
    (vendorRound m last s).value =
      some (.inr ⟨behindOption m s.ext, st, s.seen ++ [s.ext]⟩) := by
  simp [vendorRound, hlast, hend, hpad, hbehind, hst]

end Rounds

theorem vendorRound_seen (m : Memory UInt8) (last : ℕ) (s : VendorScan)
    (next : VendorScan ⊕ VendorScan) (h : (vendorRound m last s).value = some next) :
    s.seen <+: Sum.elim VendorScan.seen VendorScan.seen next := by
  by_cases hlast : last ≤ s.ext
  · rw [(vendorRound_last 0 hlast).2] at h
    cases h
    exact List.prefix_rfl
  have hlast := Nat.lt_of_not_le hlast
  by_cases hend : m s.ext = 0xff
  · rw [(vendorRound_endMark 0 hlast hend).2] at h
    cases h
    exact List.prefix_rfl
  by_cases hpad : m s.ext = 0
  · rw [(vendorRound_pad 0 hlast hpad).2] at h
    cases h
    exact List.prefix_rfl
  by_cases hbehind : behindOption m s.ext ≤ last
  · obtain ⟨st, hst⟩ := bootpVendorFieldProcess_value m s.ext s.st
    rw [(vendorRound_option 0 hlast hend hpad hbehind hst).2] at h
    cases h
    exact List.prefix_append _ _
  · rw [(vendorRound_leap 0 hlast hend hpad (Nat.lt_of_not_le hbehind)).2] at h
    cases h
    exact List.prefix_rfl

/-- `BootpVendorProcess` from a place of the packet on. -/
theorem vendorScan_iff (s : VendorScan) (hext : s.ext ≤ len) :
    ScansFrom (vendorRound m (bpVend + 4 + len)) len VendorScan.seen s
        (s.seen ++ rfcOptions m len s.ext) ↔ VendorInside m len s.ext s.st := by
  induction hleft : len - s.ext using Nat.strong_induction_on generalizing s with
  | h left ih =>
  have hmoves := lt_behindOption m s.ext
  have hlast : s.ext < bpVend + 4 + len := by
    unfold bpVend
    omega
  by_cases hend : m s.ext = 0xff
  · obtain ⟨hwithin, hvalue⟩ := vendorRound_endMark len hlast hend
    rw [scansFrom_end hvalue, hwithin, rfcOptions_endMark hend, List.append_nil]
    constructor
    · exact fun h => .endMark h.1 hend
    · intro h
      cases h with
      | endMark hp => exact ⟨hp, rfl⟩
      | leap _ hne => exact absurd hend hne
      | pad _ hpad => exact absurd (hend.symm.trans hpad) (by decide)
      | option hne => exact absurd hend hne
  by_cases hpad : m s.ext = 0
  · obtain ⟨hwithin, hvalue⟩ := vendorRound_pad len hlast hpad
    rw [scansFrom_next hvalue, hwithin]
    have hrest := fun hp : s.ext < len =>
      ih (len - (s.ext + 1)) (by omega) { s with ext := s.ext + 1 } hp rfl
    constructor
    · rintro ⟨hp, hscans⟩
      rw [rfcOptions_pad hp hpad] at hscans
      exact .pad hp hpad ((hrest hp).mp hscans)
    · intro h
      cases h with
      | endMark _ hmark => exact absurd hmark hend
      | leap _ _ hne => exact absurd hpad hne
      | pad hp _ hinside =>
          rw [rfcOptions_pad hp hpad]
          exact ⟨hp, (hrest hp).mpr hinside⟩
      | option _ hne => exact absurd hpad hne
  by_cases hbehind : behindOption m s.ext ≤ bpVend + 4 + len
  swap
  · have hleap := Nat.lt_of_not_le hbehind
    obtain ⟨hwithin, hvalue⟩ := vendorRound_leap len hlast hend hpad hleap
    obtain ⟨hafter, hdone⟩ := vendorRound_last len (m := m)
      (s := { s with ext := behindOption m s.ext }) hleap.le
    have hincomplete : len < behindOption m s.ext := by omega
    rw [scansFrom_next hvalue, hwithin, scansFrom_end hdone,
      rfcOptions_incomplete hpad hincomplete, List.append_nil]
    constructor
    · exact fun h => .leap h.1.2 hend hpad hleap
    · intro h
      cases h with
      | endMark _ hmark => exact absurd hmark hend
      | leap hp => exact ⟨⟨by omega, hp⟩, hafter, rfl⟩
      | pad _ heq => exact absurd heq hpad
      | option _ _ hcomplete => omega
  obtain ⟨st, hst⟩ := bootpVendorFieldProcess_value m s.ext s.st
  obtain ⟨hwithin, hvalue⟩ :=
    vendorRound_option len hlast hend hpad hbehind hst
  rw [scansFrom_next hvalue, hwithin]
  constructor
  · rintro ⟨⟨hp, _, hread⟩, hscans⟩
    obtain ⟨rest, hseen⟩ := hscans.adds (vendorRound_seen m _)
    rw [List.append_assoc] at hseen
    obtain ⟨_, hcomplete, rfl⟩ :=
      option_of_rfcOptions_cons hend (List.append_cancel_left hseen).symm
    rw [← hseen, ← List.append_assoc] at hscans
    exact .option hend hpad hcomplete
      ((bootpVendorFieldProcess_within hcomplete).mp hread) hst
      ((ih (len - behindOption m s.ext) (by omega) _ hcomplete rfl).mp hscans)
  · intro h
    cases h with
    | endMark _ hmark => exact absurd hmark hend
    | leap _ _ _ hleap => omega
    | pad _ heq => exact absurd heq hpad
    | option _ _ hcomplete hip hst' hinside =>
        obtain rfl := Option.some.inj (hst.symm.trans hst')
        refine ⟨⟨by omega, by omega,
          (bootpVendorFieldProcess_within hcomplete).mpr hip⟩, ?_⟩
        rw [rfcOptions_option hend hpad hcomplete,
          List.append_cons s.seen s.ext (rfcOptions m len _)]
        exact (ih (len - behindOption m s.ext) (by omega)
          ⟨behindOption m s.ext, st, s.seen ++ [s.ext]⟩ hcomplete rfl).mpr hinside

/-! ## The packet -/

theorem scans_bind {α β : Type} {x : Reading β} {b : β} {f : β → ℕ → Reading α}
    {seen : α → List ℕ} {options : List ℕ} (h : x.value = some b) :
    Scans (fun rounds => x >>= fun b => f b rounds) len seen options ↔
      x.Within len ∧ Scans (f b) len seen options := by
  constructor
  · rintro ⟨a, hcompletes, ha⟩
    obtain ⟨hwithin, b', hvalue, hscan⟩ := Reading.completes_bind.mp hcompletes
    obtain rfl := Option.some.inj (h.symm.trans hvalue)
    exact ⟨hwithin, a, hscan, ha⟩
  · rintro ⟨hwithin, a, hscan, ha⟩
    exact ⟨a, Reading.completes_bind.mpr ⟨hwithin, b, h, hscan⟩, ha⟩

theorem scans_pure {α : Type} {a : α} {seen : α → List ℕ} {options : List ℕ} :
    Scans (fun _ => pure a) len seen options ↔ seen a = options := by
  constructor
  · rintro ⟨b, hcompletes, hb⟩
    obtain rfl := Option.some.inj (Reading.completes_const.mp hcompletes).2
    exact hb
  · exact fun ha => ⟨a, Reading.completes_const.mpr ⟨Reading.within_pure len a, rfl⟩, ha⟩

theorem within_magic : (Reading.bytes m bpVend 4).Within len ↔ bpVend + 4 ≤ len := by
  simp

/-- A scanner behind the test of the magic number. -/
theorem scans_magic {α : Type} {f : ℕ → Reading α} {a : α} {seen : α → List ℕ}
    {found : List ℕ} {inside : Prop} (hnone : seen a = [])
    (hfound : bpVend + 4 ≤ len → (Scans f len seen found ↔ inside)) :
    Scans (fun rounds => Reading.bytes m bpVend 4 >>= fun magic =>
        if magic = bootpVendorMagic then f rounds else pure a) len seen
        (if netReadLong m bpVend = bootpVendorMagic then found else []) ↔
      bpVend + 4 ≤ len ∧ (netReadLong m bpVend = bootpVendorMagic → inside) := by
  have hvalue : (Reading.bytes m bpVend 4).value = some (netReadLong m bpVend) := rfl
  rw [scans_bind hvalue, within_magic]
  refine and_congr_right fun hlen => ?_
  by_cases hmagic : netReadLong m bpVend = bootpVendorMagic
  · simp only [if_pos hmagic, imp_iff_right hmagic]
    exact hfound hlen
  · simp only [if_neg hmagic]
    exact iff_of_true (scans_pure.mpr hnone) fun h => absurd h hmagic

theorem bootpVendorProcess_scans (m : Memory UInt8) (len : ℕ) (params : BootpParams) :
    Scans (bootpVendorProcess m len params) len VendorScan.seen (packetOptions m len) ↔
      bpVend + 4 ≤ len ∧ (netReadLong m bpVend = bootpVendorMagic →
        VendorInside m len (bpVend + 4) params) :=
  scans_magic rfl fun hlen => vendorScan_iff ⟨bpVend + 4, params, []⟩ hlen

theorem readDhcpOptions_scans (m : Memory UInt8) (len : ℕ) (st : Dhcp) :
    Scans (readDhcpOptions m st) len DhcpScan.seen (packetOptions m len) ↔
      bpVend + 4 ≤ len ∧ (netReadLong m bpVend = bootpVendorMagic →
        DhcpInside m len (bpVend + 4)) :=
  scans_magic rfl fun _ => dhcpScan_iff ⟨bpVend + 4, m, st, []⟩ le_rfl fun _ _ => rfl

theorem readMessageType_scans (m : Memory UInt8) (len : ℕ) :
    Scans (readMessageType m) len MessageScan.seen
        (upToMessageType m (packetOptions m len)) ↔
      bpVend + 4 ≤ len ∧ (netReadLong m bpVend = bootpVendorMagic →
        MessageInside m len (bpVend + 4)) := by
  have hoptions : upToMessageType m (packetOptions m len) =
      if netReadLong m bpVend = bootpVendorMagic then
        upToMessageType m (rfcOptions m len (bpVend + 4)) else [] :=
    apply_ite (upToMessageType m) _ _ _
  unfold readMessageType
  simp only [hoptions, ite_not]
  exact scans_magic rfl fun _ => messageScan_iff ⟨bpVend + 4, none, []⟩

/-- The options of an accepted packet are scanned right if and only if the packet holds
the magic number's four bytes and, where these are the magic number, its options are
inside for each scanner. -/
theorem optionsScanned_iff (p : RxPacket) (params : BootpParams) (st : Dhcp) :
    (bootpCheckPkt p st = 0 → OptionsScanned p params st) ↔
      (bootpCheckPkt p st = 0 → bpVend + 4 ≤ p.len ∧
        (netReadLong p.mem bpVend = bootpVendorMagic →
          VendorInside p.mem p.len (bpVend + 4) params ∧
          DhcpInside p.mem p.len (bpVend + 4) ∧
          MessageInside p.mem p.len (bpVend + 4))) := by
  refine imp_congr_right fun _ => ?_
  constructor
  · rintro ⟨hvendor, hdhcp, hmessage⟩
    obtain ⟨hlen, hvendor⟩ := (bootpVendorProcess_scans _ _ _).mp hvendor
    exact ⟨hlen, fun hmagic => ⟨hvendor hmagic,
      ((readDhcpOptions_scans _ _ st).mp hdhcp).2 hmagic,
      ((readMessageType_scans _ _).mp hmessage).2 hmagic⟩⟩
  · rintro ⟨hlen, hinside⟩
    exact ⟨(bootpVendorProcess_scans _ _ _).mpr ⟨hlen, fun hmagic => (hinside hmagic).1⟩,
      (readDhcpOptions_scans _ _ st).mpr ⟨hlen, fun hmagic => (hinside hmagic).2.1⟩,
      (readMessageType_scans _ _).mpr ⟨hlen, fun hmagic => (hinside hmagic).2.2⟩⟩

/-- An acknowledgement with a pad behind its message type. -/
def paddedAck : RxPacket :=
  let bytes := [2, 1, 6, 0, 0, 0, 0, 0] ++ List.replicate 228 0 ++ bootpVendorMagic ++
    [53, 1, 5, 0, 255]
  ⟨Memory.ofList 0 bytes, bytes.length, portBootpc, portBootps, [2, 0, 0, 0, 0, 1]⟩

/-- No vendor field has been set. -/
def noParams : BootpParams := ⟨ipUnset, ipUnset, ipUnset, [], [], [], 0⟩

/-- The pad is taken for an option of 255 bytes. -/
theorem paddedAck_not_optionsScanned :
    ¬ (bootpCheckPkt paddedAck idleDhcp = 0 →
      OptionsScanned paddedAck noParams idleDhcp) := by
  intro h
  have hdhcp := (h (by decide +kernel)).dhcp
  have hinside := ((readDhcpOptions_scans _ _ _).mp hdhcp).2 (by decide)
  have hpad : ¬ DhcpInside paddedAck.mem paddedAck.len 243 := by
    intro hinside
    cases hinside with
    | endMark _ _ hend => exact absurd hend (by decide)
    | last hlast => exact absurd hlast (by decide)
    | option _ _ hpad => exact hpad (by decide)
  have hbehind : behindOption paddedAck.mem (bpVend + 4) = 243 := by decide
  cases hinside with
  | endMark _ _ hend => exact absurd hend (by decide)
  | last hlast => exact absurd hlast (by decide)
  | option _ _ _ _ _ hrest => exact hpad (hbehind ▸ hrest)

end TateFirmware.Net
