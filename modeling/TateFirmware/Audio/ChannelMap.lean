import Mathlib.Data.List.Find
import TateFirmware.Audio.HdmiOut

/-!
# The `channel_map` parameter

The parameter packs the slot values of the channels into a number, which is
written in decimal.  The value is copied into a buffer of eight characters, so
the HAL reads the first seven of them only.
-/

namespace TateFirmware.Audio

open Support LibGeneric

/-- The values of the constants in the OpenMAX IL headers. -/
structure OmxValues (omx : OmxAudioChannel → ℕ) : Prop where
  lf : omx .lf = 1
  rf : omx .rf = 2
  cf : omx .cf = 3
  ls : omx .ls = 4
  rs : omx .rs = 5
  lfe : omx .lfe = 6
  lr : omx .lr = 8
  rr : omx .rr = 9

/-- The order of the channels in CEA-861. -/
def ceaValues : Memory ℕ := Memory.ofList 0 [1, 2, 6, 3, 4, 5, 8, 9]

theorem OmxValues.ceaChannelMap_eq {omx : OmxAudioChannel → ℕ}
    (h : OmxValues omx) : ceaChannelMap omx = ceaValues := by
  rw [ceaChannelMap, h.lf, h.rf, h.lfe, h.cf, h.ls, h.rs, h.lr, h.rr]
  rfl

theorem ceaValues_bounds : ∀ x < 8, 0 < ceaValues x ∧ ceaValues x < 16 := by
  decide

theorem ceaValues_injective :
    ∀ x < 8, ∀ y < 8, ceaValues x = ceaValues y → x = y := by decide

/-- The number that packs, four bits for each channel, the slot values of the
channels. -/
def packed (omx : OmxAudioChannel → ℕ) {n : ℕ} (order : Equiv.Perm (Fin n)) :
    ℕ :=
  Nat.ofDigits 16 (List.ofFn fun x : Fin n => ceaChannelMap omx (order x))

/-! ## Hexadecimal digits -/

theorem ofDigits_digit {l : List ℕ} (hl : ∀ d ∈ l, d < 16) (i : ℕ) :
    Nat.ofDigits 16 l / 16 ^ i % 16 = l.getD i 0 := by
  induction l generalizing i with
  | nil => simp
  | cons d l ih =>
      have hd := hl d List.mem_cons_self
      rw [Nat.ofDigits_cons]
      cases i with
      | zero => simp; omega
      | succ i =>
          rw [pow_succ', ← Nat.div_div_eq_div_mul,
            show (d + 16 * Nat.ofDigits 16 l) / 16 = Nat.ofDigits 16 l by
              omega, ih fun e he => hl e (List.mem_cons_of_mem _ he)]
          rfl

/-- Two numbers of `n` digits with the same digits are the same. -/
theorem eq_of_digits {n v w : ℕ} (hv : v < 16 ^ n) (hw : w < 16 ^ n)
    (h : ∀ x < n, v / 16 ^ x % 16 = w / 16 ^ x % 16) : v = w := by
  induction n generalizing v w with
  | zero =>
      rw [pow_zero] at hv hw
      omega
  | succ n ih =>
      have hrest : v / 16 = w / 16 := by
        apply ih
        · rw [pow_succ] at hv
          omega
        · rw [pow_succ] at hw
          omega
        · intro x hx
          have hdigit := h (x + 1) (by omega)
          rwa [pow_succ', ← Nat.div_div_eq_div_mul,
            ← Nat.div_div_eq_div_mul] at hdigit
      have hlast := h 0 (Nat.succ_pos n)
      rw [pow_zero, Nat.div_one, Nat.div_one] at hlast
      omega

section Packed

variable {omx : OmxAudioChannel → ℕ} {n : ℕ}

theorem packed_digits_lt (homx : OmxValues omx) (hn : n ≤ 8)
    (order : Equiv.Perm (Fin n)) :
    ∀ d ∈ List.ofFn fun x : Fin n => ceaChannelMap omx (order x),
      d < 16 := by
  intro d hd
  obtain ⟨x, rfl⟩ := (List.mem_ofFn' _ _).mp hd
  rw [homx.ceaChannelMap_eq]
  exact (ceaValues_bounds _ ((order x).isLt.trans_le hn)).2

theorem packed_digit (homx : OmxValues omx) (hn : n ≤ 8)
    (order : Equiv.Perm (Fin n)) (x : Fin n) :
    packed omx order / 16 ^ (x : ℕ) % 16 = ceaValues (order x) := by
  rw [packed, ofDigits_digit (packed_digits_lt homx hn order),
    homx.ceaChannelMap_eq]
  simp

theorem packed_digit_of_ge (homx : OmxValues omx) (hn : n ≤ 8)
    (order : Equiv.Perm (Fin n)) {x : ℕ} (hx : n ≤ x) :
    packed omx order / 16 ^ x % 16 = 0 := by
  rw [packed, ofDigits_digit (packed_digits_lt homx hn order)]
  simp [hx]

theorem packed_lt (homx : OmxValues omx) (hn : n ≤ 8)
    (order : Equiv.Perm (Fin n)) : packed omx order < 16 ^ n := by
  have h := Nat.ofDigits_lt_base_pow_length (by decide)
    (packed_digits_lt homx hn order)
  rwa [List.length_ofFn] at h

/-- Every channel has a slot value, so a number with a digit for each channel
is not small. -/
theorem le_packed (homx : OmxValues omx) (hn : n ≤ 8)
    (order : Equiv.Perm (Fin n)) (x : Fin n) :
    16 ^ (x : ℕ) ≤ packed omx order := by
  by_contra hlt
  have hdigit := packed_digit homx hn order x
  rw [Nat.div_eq_of_lt (by omega)] at hdigit
  have hpos := (ceaValues_bounds _ ((order x).isLt.trans_le hn)).1
  omega

/-- Behind the last channel the digits are no slot values, so only a channel
that stays where it is matches. -/
theorem numMatch_packed_le (homx : OmxValues omx) (hn : n ≤ 8)
    (order : Equiv.Perm (Fin n)) :
    numMatch omx (fun x => (packed omx order / 16 ^ x % 16 : ℕ)) ≤
      n - order.support.card := by
  have hmatch : ∀ x < 8,
      ((packed omx order / 16 ^ x % 16 : ℕ) : ℤ) = ceaChannelMap omx x →
        ∃ c : Fin n, order c = c ∧ (c : ℕ) = x := by
    intro x hx heq
    have heq : packed omx order / 16 ^ x % 16 = ceaValues x := by
      rw [← homx.ceaChannelMap_eq]
      exact_mod_cast heq
    by_cases hxn : x < n
    · rw [packed_digit homx hn order ⟨x, hxn⟩] at heq
      have hfixed := ceaValues_injective _
        ((order ⟨x, hxn⟩).isLt.trans_le hn) x hx heq
      exact ⟨⟨x, hxn⟩, Fin.ext hfixed, rfl⟩
    · rw [packed_digit_of_ge homx hn order (by omega)] at heq
      have hpos := (ceaValues_bounds x hx).1
      omega
  have hsubset : ((List.range hdmiMaxChannels).filter fun x =>
      ((packed omx order / 16 ^ x % 16 : ℕ) : ℤ) =
        ceaChannelMap omx x).toFinset ⊆
      (order.supportᶜ).image Fin.val := by
    intro x hx
    rw [List.mem_toFinset, List.mem_filter] at hx
    obtain ⟨c, hfixed, hc⟩ := hmatch x (List.mem_range.mp hx.1)
      (of_decide_eq_true hx.2)
    exact Finset.mem_image.mpr ⟨c, by simpa using hfixed, hc⟩
  have hcard := (Finset.card_le_card hsubset).trans Finset.card_image_le
  rw [List.toFinset_card_of_nodup (List.nodup_range.filter _),
    Finset.card_compl, Fintype.card_fin] at hcard
  rw [numMatch, List.countP_eq_length_filter]
  exact hcard

end Packed

/-! ## The device map -/

section Device

variable {omx : OmxAudioChannel → ℕ}

theorem numMatch_congr {m m' : Memory ℤ} (h : ∀ x < 8, m x = m' x) :
    numMatch omx m = numMatch omx m' := by
  apply List.countP_congr
  intro x hx
  rw [h x (List.mem_range.mp hx)]

theorem slotChannel_congr {m m' : Memory ℤ} {n : ℕ}
    (h : ∀ x < n, m x = m' x) (y : ℕ) :
    slotChannel omx m n y = slotChannel omx m' n y := by
  unfold slotChannel
  apply List.find?_congr
  intro x hx
  rw [h x (List.mem_range.mp hx)]

/-- The map that the hexadecimal digits of a number make. -/
def digitMap (w : ℕ) : Memory ℤ := fun x => (w / 16 ^ x % 16 : ℕ)

/-- The number read from a parameter is that of its first seven characters. -/
theorem setParameters_map {value : List UInt8} {w : ℕ}
    (hw : decimalValue (value.take 7) = w) (hlt : w < 10 ^ 7)
    (adev : HdmiDevice) :
    (∀ x < 8, (hdmiAdevSetParameters omx (some value) adev).map x =
      digitMap w x) ∧
    ((hdmiAdevSetParameters omx (some value) adev).ceaMap = true ↔
      5 ≤ numMatch omx (digitMap w)) := by
  have hstrtol : strtolTen (strParmsGetStr value hdmiMaxChannels) = w := by
    have hcopied : strParmsGetStr value hdmiMaxChannels = value.take 7 := rfl
    rw [strtolTen, hcopied, hw]
    omega
  have hmap : ∀ x < 8, (hdmiAdevSetParameters omx (some value) adev).map x =
      digitMap w x := by
    intro x hx
    simp only [hdmiAdevSetParameters, hstrtol]
    exact mapEntry_eq (by omega) hx
  refine ⟨hmap, ?_⟩
  rw [← numMatch_congr hmap]
  simp only [hdmiAdevSetParameters, decide_eq_true_eq]

/-- What is handed to `pcm_write`. -/
theorem hdmiOutWrite_handed {adev : HdmiDevice} {opens : Bool} {pcmWrite : ℤ}
    {buffer handed : Memory Int16} {bytes len : ℕ} {out : HdmiOut}
    (h : (hdmiOutWrite omx adev opens pcmWrite buffer bytes out).handed =
      some (handed, len)) :
    len = bytes ∧ handed =
      if 2 < out.channels ∧ adev.ceaMap = false then
        channelRemap omx adev.map out.channels buffer out.buffcpy
          (bytes / frameSize out.channels)
      else buffer := by
  unfold hdmiOutWrite at h
  split at h
  · cases h
  · dsimp only at h
    have hsome : ∀ a : Memory Int16, some (a, bytes) = some (handed, len) →
        len = bytes ∧ handed = a := by
      rintro a ⟨⟩
      exact ⟨rfl, rfl⟩
    split at h
    · obtain ⟨hlen, hhanded⟩ := hsome _ h
      refine ⟨hlen, hhanded.trans ?_⟩
      split <;> rfl
    · obtain ⟨hlen, hhanded⟩ := hsome _ h
      refine ⟨hlen, hhanded.trans ?_⟩
      split <;> rfl

/-- A stream that is up is written. -/
theorem hdmiOutWrite_up (adev : HdmiDevice) (buffer : Memory Int16)
    (bytes : ℕ) {out : HdmiOut} (hup : out.up = true) :
    ∃ handed, (hdmiOutWrite omx adev true 0 buffer bytes out).handed =
      some (handed, bytes) := by
  unfold hdmiOutWrite
  rw [hup]
  exact ⟨_, rfl⟩

end Device

/-! ## The order of the samples -/

/-- With the parameter, every stream of `n` channels hands the samples of at
most one period to the PCM device with each channel in its slot. -/
def WritesOrdered (omx : OmxAudioChannel → ℕ) {n : ℕ}
    (order : Equiv.Perm (Fin n)) (value : List UInt8) : Prop :=
  ∀ (adev : HdmiDevice) (opens : Bool) (pcmWrite : ℤ)
    (buffer handed : Memory Int16) (bytes len : ℕ) (out : HdmiOut),
    out.channels = n → bytes ≤ hdmiPeriodSize * frameSize n →
    (hdmiOutWrite omx (hdmiAdevSetParameters omx (some value) adev) opens
      pcmWrite buffer bytes out).handed = some (handed, len) →
    len = bytes ∧ ∀ frame < bytes / frameSize n, ∀ x : Fin n,
      handed (frame * n + order x) = buffer (frame * n + x)

section Order

variable {omx : OmxAudioChannel → ℕ} {n : ℕ} {order : Equiv.Perm (Fin n)}

/-- With the right digits the channel of a slot is found. -/
theorem slotChannel_digitMap (homx : OmxValues omx) (hn : n ≤ 8)
    (x : Fin n) :
    slotChannel omx (digitMap (packed omx order)) n (order x) = some ↑x := by
  have hdigit : ∀ c : Fin n, digitMap (packed omx order) c =
      ceaValues (order c) := by
    intro c
    rw [digitMap, packed_digit homx hn order c]
  unfold slotChannel
  rw [List.find?_range_eq_some, homx.ceaChannelMap_eq]
  refine ⟨by simp [hdigit x], List.mem_range.mpr x.isLt, fun j hj => ?_⟩
  have hjn : j < n := hj.trans x.isLt
  rw [hdigit ⟨j, hjn⟩]
  simp only [Bool.not_eq_eq_eq_not, Bool.not_true, decide_eq_false_iff_not]
  intro heq
  have hslot := ceaValues_injective _ ((order x).isLt.trans_le hn) _
    ((order ⟨j, hjn⟩).isLt.trans_le hn) (by exact_mod_cast heq)
  have hchannel := congrArg Fin.val (order.injective (Fin.ext hslot))
  simp only at hchannel
  omega

theorem writesOrdered_of_eq (homx : OmxValues omx)
    (hn : n = 4 ∨ n = 6 ∨ n = 8) {value : List UInt8}
    (hvalue : decimalValue (value.take 7) = packed omx order) :
    WritesOrdered omx order value := by
  have hn8 : n ≤ 8 := by omega
  have hlt : packed omx order < 10 ^ 7 := by
    have hlt := decimalValue_lt (value.take 7)
    have hlength : (value.take 7).length ≤ 7 := List.length_take_le _ _
    have hle : 10 ^ (value.take 7).length ≤ 10 ^ 7 :=
      Nat.pow_le_pow_right (by decide) hlength
    omega
  -- the number has a digit for each channel, so there are not eight of them
  have hn6 : n ≤ 6 := by
    by_contra hgt
    have hle := le_packed homx hn8 order ⟨6, by omega⟩
    simp only at hle
    omega
  intro adev opens pcmWrite buffer handed bytes len out hchannels _ hhanded
  obtain ⟨hmap, hcea⟩ := @setParameters_map omx _ _ hvalue hlt adev
  obtain ⟨rfl, rfl⟩ := hdmiOutWrite_handed hhanded
  refine ⟨rfl, fun frame hframe x => ?_⟩
  rw [hchannels]
  by_cases hsame : (hdmiAdevSetParameters omx (some value) adev).ceaMap = false
  · rw [if_pos ⟨by omega, hsame⟩,
      (channelRemap_apply omx _ n buffer _ _).1 frame hframe _ (order x).isLt,
      slotChannel_congr (fun c hc => hmap c (by omega)),
      slotChannel_digitMap homx hn8 x, Option.elim_some]
  · rw [if_neg fun h => hsame h.2]
    have hmatch := hcea.mp (by simpa using hsame)
    have hle := hmatch.trans (numMatch_packed_le homx hn8 order)
    have hone : order = 1 :=
      Equiv.Perm.card_support_le_one.mp (by omega)
    rw [hone]
    rfl

/-- The number of the order of CEA-861 itself loses its matches with its last
digits. -/
theorem numMatch_one_lt (homx : OmxValues omx) (hn : n = 4 ∨ n = 6 ∨ n = 8)
    {k : ℕ} (hk : k ≠ 0) :
    numMatch omx (digitMap (packed omx (1 : Equiv.Perm (Fin n)) / 10 ^ k)) <
      5 := by
  have hpacked : packed omx (1 : Equiv.Perm (Fin n)) < 10 ^ 10 := by
    have hlt := packed_lt homx (by omega) (1 : Equiv.Perm (Fin n))
    have hle : 16 ^ n ≤ 16 ^ 8 := Nat.pow_le_pow_right (by decide) (by omega)
    omega
  have hsmall : ∀ w ∈ [13857, 5518881, 2555655713], ∀ j < 11, j ≠ 0 →
      (List.range 8).countP (fun x =>
        w / 10 ^ j / 16 ^ x % 16 = ceaValues x) < 5 := by decide
  have hmem : packed omx (1 : Equiv.Perm (Fin n)) ∈
      [13857, 5518881, 2555655713] := by
    unfold packed
    rw [homx.ceaChannelMap_eq]
    rcases hn with rfl | rfl | rfl <;> decide
  have hcount : ∀ w, numMatch omx (digitMap w) =
      (List.range 8).countP fun x => w / 16 ^ x % 16 = ceaValues x := by
    intro w
    unfold numMatch digitMap
    rw [homx.ceaChannelMap_eq]
    apply List.countP_congr
    intro x _
    simp only [decide_eq_true_eq]
    exact Int.ofNat_inj
  rw [hcount]
  by_cases hk11 : k < 11
  · exact hsmall _ hmem k hk11 hk
  · have hzero : packed omx (1 : Equiv.Perm (Fin n)) / 10 ^ k =
        packed omx (1 : Equiv.Perm (Fin n)) / 10 ^ 10 := by
      have hle : 10 ^ 10 ≤ 10 ^ k := Nat.pow_le_pow_right (by decide) (by omega)
      rw [Nat.div_eq_of_lt hpacked, Nat.div_eq_of_lt (hpacked.trans_le hle)]
    rw [hzero]
    exact hsmall _ hmem 10 (by decide) (by decide)

/-- The samples of a frame in which one channel sounds. -/
def soundOf (x : ℕ) : Memory Int16 := fun j => if j = x then 1 else 0

theorem soundOf_eq_one {x j : ℕ} : soundOf x j = 1 ↔ j = x := by
  unfold soundOf
  split
  · rename_i heq
    exact ⟨fun _ => heq, fun _ => rfl⟩
  · rename_i hne
    exact ⟨fun h => absurd h (by decide), fun h => absurd h hne⟩

/-- A stream whose samples are in order has been given the whole number. -/
theorem eq_of_writesOrdered (homx : OmxValues omx)
    (hn : n = 4 ∨ n = 6 ∨ n = 8) {value : List UInt8}
    (hvalue : decimalValue value = packed omx order)
    (hordered : WritesOrdered omx order value) :
    decimalValue (value.take 7) = packed omx order := by
  have hn8 : n ≤ 8 := by omega
  obtain ⟨k, hk⟩ := decimalValue_take hvalue 7
  have hlt : packed omx order / 10 ^ k < 10 ^ 7 := by
    have hlt := decimalValue_lt (value.take 7)
    have hlength : (value.take 7).length ≤ 7 := List.length_take_le _ _
    have hle : 10 ^ (value.take 7).length ≤ 10 ^ 7 :=
      Nat.pow_le_pow_right (by decide) hlength
    omega
  obtain ⟨hmap, hcea⟩ := @setParameters_map omx _ _ hk hlt
    ⟨fun _ => 0, false⟩
  rw [hk]
  -- one frame in which channel `x` sounds, on a silent buffer
  have hsound : ∀ x : Fin n, (if 2 < n ∧ (hdmiAdevSetParameters omx
      (some value) ⟨fun _ => 0, false⟩).ceaMap = false then
        channelRemap omx (hdmiAdevSetParameters omx (some value)
          ⟨fun _ => 0, false⟩).map n (soundOf x) (fun _ => 0) 1
      else soundOf x) (order x) = 1 := by
    intro x
    obtain ⟨handed, hhanded⟩ := @hdmiOutWrite_up omx
      (hdmiAdevSetParameters omx (some value) ⟨fun _ => 0, false⟩)
      (soundOf x) (frameSize n) ⟨n, true, fun _ => 0⟩ rfl
    have hframes : frameSize n / frameSize n = 1 :=
      Nat.div_self (by unfold frameSize; omega)
    have hperiod : frameSize n ≤ hdmiPeriodSize * frameSize n :=
      Nat.le_mul_of_pos_left _ (by decide)
    obtain ⟨-, hsamples⟩ := hordered ⟨fun _ => 0, false⟩ true 0 (soundOf x)
      handed (frameSize n) (frameSize n) ⟨n, true, fun _ => 0⟩ rfl hperiod
      hhanded
    obtain ⟨-, heq⟩ := hdmiOutWrite_handed hhanded
    have hone := hsamples 0 (by omega) x
    rw [heq, hframes] at hone
    simpa [soundOf] using hone
  generalize hdmiAdevSetParameters omx (some value) ⟨fun _ => 0, false⟩ =
    adev at hmap hcea hsound
  by_cases hsame : adev.ceaMap = false
  · have hdigits : ∀ x : Fin n, digitMap (packed omx order / 10 ^ k) x =
        ceaValues (order x) := by
      intro x
      have hone := hsound x
      rw [if_pos ⟨by omega, hsame⟩] at hone
      have hslot := (channelRemap_apply omx adev.map n (soundOf x) 1
        fun _ => 0).1 0 (by omega) _ (order x).isLt
      rw [Nat.zero_mul, Nat.zero_add, hone,
        slotChannel_congr (fun c hc => hmap c (by omega))] at hslot
      cases hchannel : slotChannel omx (digitMap (packed omx order / 10 ^ k)) n
          (order x) with
      | none =>
          rw [hchannel, Option.elim_none] at hslot
          exact absurd hslot (by decide)
      | some c =>
          rw [hchannel, Option.elim_some, Nat.zero_add] at hslot
          have hc : c = x := soundOf_eq_one.mp hslot.symm
          have hfound := List.find?_some hchannel
          rw [decide_eq_true_eq, hc, homx.ceaChannelMap_eq] at hfound
          exact hfound.symm
    have heq : packed omx order / 10 ^ k = packed omx order := by
      have hbound := packed_lt homx hn8 order
      refine eq_of_digits ((Nat.div_le_self _ _).trans_lt hbound) hbound ?_
      intro x hx
      rw [packed_digit homx hn8 order ⟨x, hx⟩]
      exact Int.ofNat_inj.mp (hdigits ⟨x, hx⟩)
    rw [heq]
  · have hone : order = 1 := by
      apply Equiv.ext
      intro x
      have hx := hsound x
      rw [if_neg fun h => hsame h.2] at hx
      exact Fin.ext (soundOf_eq_one.mp hx)
    subst hone
    have hmatch := hcea.mp (by simpa using hsame)
    by_cases hk0 : k = 0
    · rw [hk0, pow_zero, Nat.div_one]
    · have hfew := numMatch_one_lt homx hn hk0
      omega

/-- For every stream of four, six or eight channels, every order of them and
every parameter with the number that packs it: the samples are handed on in
order exactly if the first seven characters of the parameter already have this
number. -/
theorem writesOrdered_iff (homx : OmxValues omx) (hn : n = 4 ∨ n = 6 ∨ n = 8)
    (order : Equiv.Perm (Fin n)) {value : List UInt8}
    (hvalue : decimalValue value = packed omx order) :
    WritesOrdered omx order value ↔
      decimalValue (value.take 7) = packed omx order :=
  ⟨eq_of_writesOrdered homx hn hvalue, writesOrdered_of_eq homx hn⟩

/-- A parameter written without leading zeros is read as a whole unless it
orders eight channels. -/
theorem writesOrdered_formatUnsigned_iff (homx : OmxValues omx)
    (hn : n = 4 ∨ n = 6 ∨ n = 8) (order : Equiv.Perm (Fin n)) :
    WritesOrdered omx order (formatUnsigned (packed omx order)) ↔ n ≠ 8 := by
  have hn8 : n ≤ 8 := by omega
  have hpos : packed omx order ≠ 0 := by
    have hle := le_packed homx hn8 order ⟨0, by omega⟩
    simp only at hle
    omega
  have hvalue := decimalValue_formatUnsigned hpos
  rw [writesOrdered_iff homx hn order hvalue]
  constructor
  · rintro htake rfl
    have hle := le_packed homx hn8 order ⟨7, by omega⟩
    have hlt := decimalValue_lt ((formatUnsigned (packed omx order)).take 7)
    have hlength : ((formatUnsigned (packed omx order)).take 7).length ≤ 7 :=
      List.length_take_le _ _
    have hpow : 10 ^ ((formatUnsigned (packed omx order)).take 7).length ≤
        10 ^ 7 := Nat.pow_le_pow_right (by decide) hlength
    simp only at hle
    omega
  · intro hne
    have hbound := packed_lt homx hn8 order
    have hlt : packed omx order < 10 ^ 7 := by
      rcases hn with rfl | rfl | rfl
      · omega
      · -- the slot values of six channels are at most 6
        have hsmall : ∀ y < 6, ceaValues y ≤ 6 := by decide
        have hdigit := packed_digit homx hn8 order ⟨5, by omega⟩
        have hle := hsmall _ (order ⟨5, by omega⟩).isLt
        simp only at hdigit
        omega
      · exact absurd rfl hne
    rw [List.take_of_length_le (formatUnsigned_length_le hpos hlt), hvalue]

end Order

/-! ## An order of eight channels -/

/-- The values of the constants. -/
def omxValue : OmxAudioChannel → ℕ
  | .lf => 1
  | .rf => 2
  | .cf => 3
  | .ls => 4
  | .rs => 5
  | .lfe => 6
  | .lr => 8
  | .rr => 9

theorem omxValue_values : OmxValues omxValue :=
  ⟨rfl, rfl, rfl, rfl, rfl, rfl, rfl, rfl⟩

/-- The number of the order of CEA-861 with six channels is read as a
whole. -/
theorem writesOrdered_iff_six :
    WritesOrdered omxValue (1 : Equiv.Perm (Fin 6)) (text "5518881") ↔
      decimalValue ((text "5518881").take 7) =
        packed omxValue (1 : Equiv.Perm (Fin 6)) :=
  writesOrdered_iff omxValue_values (Or.inr (Or.inl rfl)) 1
    (by decide)

/-- The number of the same order with eight channels has ten digits. -/
theorem not_writesOrdered :
    ¬ ∀ (omx : OmxAudioChannel → ℕ) (n : ℕ) (order : Equiv.Perm (Fin n))
      (value : List UInt8), OmxValues omx → (n = 4 ∨ n = 6 ∨ n = 8) →
      decimalValue value = packed omx order →
      WritesOrdered omx order value := by
  intro hclaim
  have hnumber : decimalValue (text "2555655713") =
      packed omxValue (1 : Equiv.Perm (Fin 8)) := by decide
  have hordered := hclaim omxValue 8 1 (text "2555655713") omxValue_values
    (Or.inr (Or.inr rfl)) hnumber
  have hwhole := eq_of_writesOrdered omxValue_values (Or.inr (Or.inr rfl))
    hnumber hordered
  rw [← hnumber] at hwhole
  exact absurd hwhole (by decide)

end TateFirmware.Audio
