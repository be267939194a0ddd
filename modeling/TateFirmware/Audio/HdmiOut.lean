import Mathlib.GroupTheory.Perm.Support
import TateFirmware.LibGeneric.Decimal
import TateFirmware.Support.Memory

/-!
# The HDMI audio output

`hdmi_adev_set_parameters` takes the order of the channels of a stream from
the parameter `channel_map`, a number with four bits for each channel, and
`hdmi_out_write` brings the samples into the order of CEA-861 before it hands
them to the PCM device.
-/

namespace TateFirmware.Audio

open Support LibGeneric

/-- `HDMI_MAX_CHANNELS`. -/
def hdmiMaxChannels : ℕ := 8

/-- `HDMI_PERIOD_SIZE`. -/
def hdmiPeriodSize : ℕ := 1920

/-- The constants of `OMX_AUDIO_CHANNELTYPE` that the HAL uses. -/
inductive OmxAudioChannel where
  | lf
  | rf
  | lfe
  | cf
  | ls
  | rs
  | lr
  | rr
deriving DecidableEq, Repr

/-- `cea_channel_map`, for the values of the constants. -/
def ceaChannelMap (omx : OmxAudioChannel → ℕ) : Memory ℕ :=
  Memory.ofList 0 [omx .lf, omx .rf, omx .lfe, omx .cf, omx .ls, omx .rs,
    omx .lr, omx .rr]

/-- `struct hdmi_device_t`. -/
structure HdmiDevice where
  map : Memory ℤ
  ceaMap : Bool

/-- `(val & (0xF << x*4)) >> x*4` for an `int`. -/
def mapEntry (val : ℤ) (x : ℕ) : ℤ :=
  ((BitVec.ofInt 32 val &&& ((0xF : BitVec 32) <<< (x * 4))).sshiftRight
    (x * 4)).toInt

/-- `str_parms_get_str` on a value, for a buffer of `len` characters. -/
def strParmsGetStr (value : List UInt8) (len : ℕ) : List UInt8 :=
  value.take (len - 1)

/-- The number of entries of a map that are those of `cea_channel_map`. -/
def numMatch (omx : OmxAudioChannel → ℕ) (map : Memory ℤ) : ℕ :=
  (List.range hdmiMaxChannels).countP fun x => map x = ceaChannelMap omx x

/-- `hdmi_adev_set_parameters`, with the value of `channel_map` if the
parameters have one. -/
def hdmiAdevSetParameters (omx : OmxAudioChannel → ℕ)
    (channelMap : Option (List UInt8)) (adev : HdmiDevice) : HdmiDevice :=
  match channelMap with
  | none => adev
  | some channelMap =>
      let value := strParmsGetStr channelMap hdmiMaxChannels
      let val := strtolTen value
      let map : Memory ℤ := fun x => mapEntry val x
      { map := map, ceaMap := decide (5 ≤ numMatch omx map) }

/-- The fields of `hdmi_out_t` that writing uses.  The buffer `buffcpy` has
room for a period of eight channels. -/
structure HdmiOut where
  channels : ℕ
  up : Bool
  buffcpy : Memory Int16

/-- The loop over `x` for one slot: the sample of the first channel that is
mapped to the slot. -/
def remapSlot (omx : OmxAudioChannel → ℕ) (map : Memory ℤ) (channels : ℕ)
    (buf : Memory Int16) (first : ℕ) (tmp : Memory Int16) (y : ℕ) :
    Memory Int16 :=
  match (List.range channels).find? fun x => ceaChannelMap omx y = map x with
  | some x => tmp.store (first + y) (buf (first + x))
  | none => tmp

/-- The loop over `y` for one frame. -/
def remapFrame (omx : OmxAudioChannel → ℕ) (map : Memory ℤ) (channels : ℕ)
    (buf tmp : Memory Int16) (frame : ℕ) : Memory Int16 :=
  (List.range channels).foldl
    (remapSlot omx map channels buf (frame * channels)) tmp

/-- `channel_remap`, for a number of frames. -/
def channelRemap (omx : OmxAudioChannel → ℕ) (map : Memory ℤ) (channels : ℕ)
    (buf tmp : Memory Int16) (frames : ℕ) : Memory Int16 :=
  (List.range frames).foldl (remapFrame omx map channels buf) tmp

/-- `audio_stream_frame_size`: a sample has two bytes. -/
def frameSize (channels : ℕ) : ℕ := 2 * channels

/-- What `hdmi_out_write` returns, and the samples and number of bytes it has
handed to `pcm_write`. -/
structure WriteResult where
  ret : ℤ
  handed : Option (Memory Int16 × ℕ)
  out : HdmiOut

/-- `-ENOSYS`. -/
def enosys : ℤ := -38

/-- `hdmi_out_write`, with the outcome of opening the PCM device and the
result of `pcm_write`. -/
def hdmiOutWrite (omx : OmxAudioChannel → ℕ) (adev : HdmiDevice)
    (opens : Bool) (pcmWrite : ℤ) (buffer : Memory Int16) (bytes : ℕ)
    (out : HdmiOut) : WriteResult :=
  if !out.up && !opens then ⟨enosys, none, out⟩
  else
    let out := { out with up := true }
    let out :=
      if 2 < out.channels ∧ adev.ceaMap = false then
        { out with
          buffcpy := channelRemap omx adev.map out.channels buffer out.buffcpy
            (bytes / frameSize out.channels) }
      else out
    let handed :=
      if 2 < out.channels ∧ adev.ceaMap = false then out.buffcpy
      else buffer
    if pcmWrite ≠ 0 then
      ⟨if pcmWrite < 0 then pcmWrite else -pcmWrite, some (handed, bytes),
        { out with up := false }⟩
    else ⟨bytes, some (handed, bytes), out⟩

/-!
## The order of the channels

The entries of the device map are the hexadecimal digits of the number in the
parameter, and remapping moves the sample of a channel to the slot its entry
stands for.
-/

/-! ## Entries of the map -/

theorem and_shiftLeft_fifteen (v k : ℕ) :
    v &&& (15 <<< k) = (v / 2 ^ k % 16) <<< k := by
  have hmod : v / 2 ^ k % 16 = (v >>> k) &&& 15 := by
    rw [Nat.shiftRight_eq_div_pow]
    exact (Nat.and_two_pow_sub_one_eq_mod _ 4).symm
  rw [hmod]
  apply Nat.eq_of_testBit_eq
  intro i
  simp only [Nat.testBit_and, Nat.testBit_shiftLeft, Nat.testBit_shiftRight]
  by_cases hi : k ≤ i
  · simp [hi]
  · simp [hi]

/-- The entries of a map are the hexadecimal digits of the value. -/
theorem mapEntry_eq {v x : ℕ} (hv : v < 2 ^ 31) (hx : x < 8) :
    mapEntry v x = (v / 16 ^ x % 16 : ℕ) := by
  have hpow : 2 ^ (x * 4) ≤ 2 ^ 28 :=
    Nat.pow_le_pow_right (by decide) (by omega)
  have hbase : (16 : ℕ) ^ x = 2 ^ (x * 4) := by
    rw [Nat.mul_comm, pow_mul]
    rfl
  have hmask : ((0xF : BitVec 32) <<< (x * 4)).toNat = 15 <<< (x * 4) := by
    rw [BitVec.toNat_shiftLeft, Nat.mod_eq_of_lt]
    · rfl
    · rw [Nat.shiftLeft_eq]
      show 15 * 2 ^ (x * 4) < 2 ^ 32
      omega
  have hval : (BitVec.ofInt 32 v).toNat = v := by
    rw [BitVec.toNat_ofInt]
    omega
  have hand : (BitVec.ofInt 32 v &&& ((0xF : BitVec 32) <<< (x * 4))).toNat =
      (v / 2 ^ (x * 4) % 16) <<< (x * 4) := by
    rw [BitVec.toNat_and, hval, hmask, and_shiftLeft_fifteen]
  have hle : (v / 2 ^ (x * 4) % 16) <<< (x * 4) ≤ v := by
    rw [Nat.shiftLeft_eq]
    exact (Nat.mul_le_mul_right _ (Nat.mod_le _ _)).trans
      (Nat.div_mul_le_self _ _)
  unfold mapEntry
  rw [BitVec.toInt_sshiftRight, BitVec.toInt_eq_toNat_of_lt (by omega), hand,
    hbase]
  have hshift : (v / 2 ^ (x * 4) % 16) <<< (x * 4) >>> (x * 4) =
      v / 2 ^ (x * 4) % 16 := Nat.shiftLeft_shiftRight _ _
  exact_mod_cast hshift

/-! ## Remapping -/

section Slots

variable (omx : OmxAudioChannel → ℕ) (map : Memory ℤ) (channels : ℕ)
  (buf : Memory Int16)

/-- The first channel that is mapped to a slot. -/
def slotChannel (y : ℕ) : Option ℕ :=
  (List.range channels).find? fun x => ceaChannelMap omx y = map x

/-- A slot holds the sample of its channel, or what it held before. -/
theorem remapSlots_apply (first n : ℕ) (tmp : Memory Int16) :
    (∀ y < n, (List.range n).foldl (remapSlot omx map channels buf first) tmp
        (first + y) = (slotChannel omx map channels y).elim (tmp (first + y))
          fun x => buf (first + x)) ∧
      ∀ j, j < first ∨ first + n ≤ j →
        (List.range n).foldl (remapSlot omx map channels buf first) tmp j =
          tmp j := by
  induction n with
  | zero => exact ⟨fun y hy => absurd hy (Nat.not_lt_zero y), fun j _ => rfl⟩
  | succ n ih =>
      obtain ⟨hin, hout⟩ := ih
      rw [List.range_succ, List.foldl_append, List.foldl_cons, List.foldl_nil]
      generalize (List.range n).foldl (remapSlot omx map channels buf first)
        tmp = done at hin hout
      have hslot : ∀ j, remapSlot omx map channels buf first done n j =
          if j = first + n then
            (slotChannel omx map channels n).elim (done j)
              fun x => buf (first + x)
          else done j := by
        intro j
        unfold remapSlot slotChannel
        cases (List.range channels).find? fun x =>
          ceaChannelMap omx n = map x with
        | none => simp
        | some x => simp [Memory.store]
      constructor
      · intro y hy
        rw [hslot]
        by_cases hyn : y = n
        · subst hyn
          rw [if_pos rfl, hout (first + y) (by omega)]
        · rw [if_neg (by omega)]
          exact hin y (by omega)
      · intro j hj
        rw [hslot, if_neg (by omega)]
        exact hout j (by omega)

theorem channelRemap_apply (frames : ℕ) (tmp : Memory Int16) :
    (∀ frame < frames, ∀ y < channels,
      channelRemap omx map channels buf tmp frames (frame * channels + y) =
        (slotChannel omx map channels y).elim (tmp (frame * channels + y))
          fun x => buf (frame * channels + x)) ∧
      ∀ j, frames * channels ≤ j →
        channelRemap omx map channels buf tmp frames j = tmp j := by
  induction frames with
  | zero =>
      exact ⟨fun frame hframe => absurd hframe (Nat.not_lt_zero frame),
        fun j _ => rfl⟩
  | succ frames ih =>
      obtain ⟨hin, hout⟩ := ih
      have hsucc : channelRemap omx map channels buf tmp (frames + 1) =
          remapFrame omx map channels buf
            (channelRemap omx map channels buf tmp frames) frames := by
        simp [channelRemap, List.range_succ, List.foldl_append]
      obtain ⟨hframe, hother⟩ := remapSlots_apply omx map channels buf
        (frames * channels) channels
        (channelRemap omx map channels buf tmp frames)
      rw [hsucc]
      unfold remapFrame
      have hstep : (frames + 1) * channels = frames * channels + channels :=
        Nat.succ_mul _ _
      constructor
      · intro frame hlt y hy
        by_cases heq : frame = frames
        · subst heq
          rw [hframe y hy, hout _ (by omega)]
        · have hle : (frame + 1) * channels ≤ frames * channels :=
            Nat.mul_le_mul_right _ (by omega)
          rw [Nat.succ_mul] at hle
          rw [hother _ (by omega)]
          exact hin frame (by omega) y hy
      · intro j hj
        rw [hother j (by omega), hout j (by omega)]

end Slots

end TateFirmware.Audio
