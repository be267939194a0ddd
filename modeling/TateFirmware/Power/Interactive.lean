import TateFirmware.LibGeneric.CString
import TateFirmware.Support.Run

/-!
# The power HAL

`omap_power_set_interactive` lowers the maximum frequency of the processor while
the screen is off.  The limit that was in effect before is kept in the one global
buffer `current_max_freq`, which every call for `off` fills from the file that the
call then writes.
-/

namespace TateFirmware.Power

open LibGeneric Support

/-- The files of `CPUFREQ_CPU0` and `CPUFREQ_INTERACTIVE` that the HAL uses. -/
inductive SysfsFile where
  | scalingAvailableFrequencies
  | scalingMaxFreq
  | timerRate
  | minSampleTime
  | hispeedFreq
  | goHispeedLoad
  | aboveHispeedDelay
deriving DecidableEq, Repr

/-- What the files hold; a file that is `none` cannot be opened. -/
abbrev Sysfs := SysfsFile → Option (List UInt8)

/-- `sysfs_write`. -/
def sysfsWrite (fs : Sysfs) (path : SysfsFile) (s : List UInt8) : Sysfs :=
  fun p => if p = path then (fs path).map fun _ => s else fs p

/-- `sysfs_read`: the bytes put into a buffer of `size`, `none` where the file
cannot be opened. -/
def sysfsRead (fs : Sysfs) (path : SysfsFile) (size : ℕ) : Option (List UInt8) :=
  (fs path).map fun content => content.take (size - 1)

/-- The text in a buffer after a read into it. -/
def bufferAfter (read : Option (List UInt8)) (buf : List UInt8) : List UInt8 :=
  match read with
  | none => buf
  | some bytes => cstr bytes

/-- The separators of `str_to_tokens`. -/
def isSeparator (c : UInt8) : Bool :=
  c = ch ' ' || c = 9 || c = 13 || c = 10

/-- `str_to_tokens` with room for `max` tokens. -/
def strToTokens : ℕ → List UInt8 → List (List UInt8)
  | 0, _ => []
  | max + 1, str =>
      match str.dropWhile isSeparator with
      | [] => []
      | c :: rest =>
          (c :: rest).takeWhile (fun c => !isSeparator c) ::
            strToTokens max ((c :: rest).dropWhile fun c => !isSeparator c).tail

/-- `MAX_FREQ_NUMBER`. -/
def maxFreqNumber : ℕ := 10

/-- `NOM_FREQ_INDEX`. -/
def nomFreqIndex : ℕ := 2

/-- `sizeof(current_max_freq)`. -/
def sizeofCurrentMaxFreq : ℕ := 10

/-- `struct omap_power_module` and the globals of the HAL. -/
structure PowerModule where
  freqList : List (List UInt8)
  maxFreq : List UInt8
  nomFreq : List UInt8
  /-- The text in `current_max_freq`. -/
  currentMaxFreq : List UInt8
  inited : Bool

/-- Read the limit in effect into `current_max_freq`. -/
def PowerModule.saveMaxFreq (m : PowerModule) (fs : Sysfs) : PowerModule :=
  { m with
    currentMaxFreq :=
      bufferAfter (sysfsRead fs .scalingMaxFreq sizeofCurrentMaxFreq)
        m.currentMaxFreq }

/-- `omap_power_init`. -/
def omapPowerInit (m : PowerModule) (fs : Sysfs) : PowerModule × Sysfs :=
  let freqBuf := (sysfsRead fs .scalingAvailableFrequencies
    (maxFreqNumber * 10)).getD []
  if freqBuf = [] then (m, fs)
  else
    let m := m.saveMaxFreq fs
    let freqList := strToTokens maxFreqNumber (cstr freqBuf)
    let freqNum := freqList.length
    if freqNum = 0 then ({ m with freqList := freqList }, fs)
    else
      let maxFreq := freqList.getD (freqNum - 1) []
      let nomFreq := freqList.getD (min freqNum nomFreqIndex - 1) []
      let fs := sysfsWrite fs .timerRate (text "20000")
      let fs := sysfsWrite fs .minSampleTime (text "60000")
      let fs := sysfsWrite fs .hispeedFreq nomFreq
      let fs := sysfsWrite fs .goHispeedLoad (text "50")
      let fs := sysfsWrite fs .aboveHispeedDelay (text "100000")
      ({ m with
          freqList := freqList
          maxFreq := maxFreq
          nomFreq := nomFreq
          inited := true }, fs)

/-- `omap_power_set_interactive`. -/
def omapPowerSetInteractive (m : PowerModule) (fs : Sysfs) (on : Bool) :
    PowerModule × Sysfs :=
  if m.inited then
    if on then
      (m, sysfsWrite fs .scalingMaxFreq
        (if 0 < m.currentMaxFreq.length then m.currentMaxFreq else m.maxFreq))
    else
      (m.saveMaxFreq fs, sysfsWrite fs .scalingMaxFreq m.nomFreq)
  else (m, fs)

/-! ## Runs -/

/-- The HAL and the files, and the limit that was in effect just before the first
call for `off` since the last call for `on`, if there has been one. -/
structure PowerState where
  module : PowerModule
  fs : Sysfs
  limit : Option (List UInt8)

inductive PowerEvent where
  /-- The user writes `scaling_max_freq`. -/
  | userWrites (value : List UInt8)
  | setInteractive (on : Bool)

/-- What a call for `on` leaves: the limit to restore, and the one in effect. -/
structure OnReport where
  limit : Option (List UInt8)
  inEffect : Option (List UInt8)
deriving DecidableEq

def PowerState.step (st : PowerState) : PowerEvent → PowerState × List OnReport
  | .userWrites value =>
      ({ st with fs := sysfsWrite st.fs .scalingMaxFreq value }, [])
  | .setInteractive on =>
      let (m, fs) := omapPowerSetInteractive st.module st.fs on
      if on then (⟨m, fs, none⟩, [⟨st.limit, fs .scalingMaxFreq⟩])
      else (⟨m, fs, st.limit.or (st.fs .scalingMaxFreq)⟩, [])

/-- The state after `omap_power_init`. -/
def PowerState.init (m : PowerModule) (fs : Sysfs) : PowerState :=
  ⟨(omapPowerInit m fs).1, (omapPowerInit m fs).2, none⟩

/-- The limit is restored. -/
def OnReport.Restored (r : OnReport) : Prop :=
  ∀ limit, r.limit = some limit → r.inEffect = some limit

/-- The user changes the limit while the screen is on. -/
def ChangesWhileOn (st : PowerState) : PowerEvent → Prop
  | .userWrites _ => st.limit = none
  | .setInteractive _ => True

/-- A limit that the buffer can hold. -/
def Holdable (limit : List UInt8) : Prop :=
  limit ≠ [] ∧ limit.length < sizeofCurrentMaxFreq ∧ (0 : UInt8) ∉ limit

/-- A call for `off` reads the limit to restore: the first one since the last call
for `on` finds a limit that the buffer can hold, and a repeated one finds the same
text again. -/
def OffKeeps (st : PowerState) : PowerEvent → Prop
  | .setInteractive false => ∃ content, st.fs .scalingMaxFreq = some content ∧
      match st.limit with
      | none => Holdable content
      | some limit => cstr (content.take (sizeofCurrentMaxFreq - 1)) = limit
  | _ => True

/-- The buffer holds the limit to restore, and there is a file to restore it in. -/
structure Saved (st : PowerState) : Prop where
  inited : st.module.inited = true
  holds : ∀ limit, st.limit = some limit →
    st.module.currentMaxFreq = limit ∧ limit ≠ []
  file : ∀ limit, st.limit = some limit → (st.fs .scalingMaxFreq).isSome

theorem sysfsWrite_self (fs : Sysfs) (path : SysfsFile) (s : List UInt8) :
    sysfsWrite fs path s path = (fs path).map fun _ => s := if_pos rfl

theorem isSome_sysfsWrite (fs : Sysfs) (path : SysfsFile) (s : List UInt8) :
    (sysfsWrite fs path s path).isSome = (fs path).isSome := by
  rw [sysfsWrite_self, Option.isSome_map]

theorem cstr_take_of_holdable {limit : List UInt8} (h : Holdable limit) :
    cstr (limit.take (sizeofCurrentMaxFreq - 1)) = limit := by
  obtain ⟨-, hlen, hnul⟩ := h
  rw [List.take_of_length_le (by omega), cstr_of_notMem hnul]

theorem saveMaxFreq_currentMaxFreq (m : PowerModule) {fs : Sysfs}
    {content : List UInt8} (h : fs .scalingMaxFreq = some content) :
    (m.saveMaxFreq fs).currentMaxFreq =
      cstr (content.take (sizeofCurrentMaxFreq - 1)) := by
  simp only [PowerModule.saveMaxFreq, sysfsRead, h, Option.map_some, bufferAfter]

theorem Saved.step {st : PowerState} {e : PowerEvent} (hsaved : Saved st)
    (hoff : OffKeeps st e) : Saved (st.step e).1 := by
  obtain ⟨hinited, hholds, hfile⟩ := hsaved
  cases e with
  | userWrites value =>
      refine ⟨hinited, hholds, fun limit hlimit => ?_⟩
      have := hfile limit hlimit
      rwa [← isSome_sysfsWrite st.fs .scalingMaxFreq value] at this
  | setInteractive on =>
      cases on with
      | true =>
          simp only [PowerState.step, omapPowerSetInteractive, if_pos hinited,
            if_true]
          exact ⟨hinited, fun limit h => (nomatch h), fun limit h => (nomatch h)⟩
      | false =>
          obtain ⟨content, hcontent, hkeeps⟩ := hoff
          have hsave := saveMaxFreq_currentMaxFreq st.module hcontent
          simp only [PowerState.step, omapPowerSetInteractive, if_pos hinited,
            Bool.false_eq_true, if_false]
          refine ⟨hinited, fun limit hlimit => ?_, fun limit hlimit => ?_⟩
          · rw [hsave]
            cases hbefore : st.limit with
            | none =>
                simp only [hbefore] at hkeeps hlimit
                rw [Option.none_or, hcontent] at hlimit
                obtain rfl := Option.some.inj hlimit
                exact ⟨cstr_take_of_holdable hkeeps, hkeeps.1⟩
            | some before =>
                simp only [hbefore] at hkeeps hlimit
                obtain rfl := Option.some.inj hlimit
                exact ⟨hkeeps, (hholds before hbefore).2⟩
          · rw [isSome_sysfsWrite, hcontent]
            rfl

theorem restored_of_saved {st : PowerState} {e : PowerEvent} (hsaved : Saved st) :
    ∀ r ∈ (st.step e).2, r.Restored := by
  obtain ⟨hinited, hholds, hfile⟩ := hsaved
  cases e with
  | userWrites value => exact fun r hr => nomatch hr
  | setInteractive on =>
      cases on with
      | false => exact fun r hr => nomatch hr
      | true =>
          intro r hr limit hlimit
          simp only [PowerState.step, omapPowerSetInteractive, if_pos hinited,
            if_true, List.mem_singleton] at hr
          subst hr
          obtain ⟨hcurrent, hne⟩ := hholds limit hlimit
          obtain ⟨content, hcontent⟩ := Option.isSome_iff_exists.mp (hfile limit hlimit)
          rw [sysfsWrite_self, hcontent, hcurrent,
            if_pos (List.length_pos_of_ne_nil hne), Option.map_some]

/-- In a run after a successful `omap_power_init` every call for `on` restores the
limit, if each call for `off` reads the limit to restore. -/
theorem setInteractive_restores {m : PowerModule} {fs : Sysfs}
    {events : List PowerEvent} (hinit : (omapPowerInit m fs).1.inited = true)
    (hoff : StepsMeet PowerState.step OffKeeps (PowerState.init m fs) events) :
    ∀ r ∈ (run PowerState.step (PowerState.init m fs) events).2, r.Restored := by
  have hsaved : Saved (PowerState.init m fs) :=
    ⟨hinit, fun limit h => (nomatch h), fun limit h => (nomatch h)⟩
  have hmeet := hoff.imp_of_invariant (B := fun st _ => Saved st)
    (fun st e hkeeps hst => ⟨hst, hst.step hkeeps⟩) hsaved
  exact run_outputs_of_stepsMeet (fun st e hst => restored_of_saved hst) hmeet

/-- The files of a processor with the limit `1200000`. -/
def exampleSysfs : Sysfs
  | .scalingAvailableFrequencies => some (text "300000 600000 800000 1200000\n")
  | .scalingMaxFreq => some (text "1200000\n")
  | _ => some []

/-- The HAL before it is initialised. -/
def PowerModule.unset : PowerModule := ⟨[], [], [], [], false⟩

theorem setInteractive_restores_twice :
    (run PowerState.step (PowerState.init .unset exampleSysfs)
      [.setInteractive false, .setInteractive true, .userWrites (text "800000"),
        .setInteractive false, .setInteractive true]).2.map OnReport.inEffect =
        [some (text "1200000\n"), some (text "800000")] ∧
      ∀ r ∈ (run PowerState.step (PowerState.init .unset exampleSysfs)
        [.setInteractive false, .setInteractive true, .userWrites (text "800000"),
          .setInteractive false, .setInteractive true]).2, r.Restored := by
  refine ⟨by decide, setInteractive_restores (by decide) ?_⟩
  refine ⟨⟨text "1200000\n", by decide, ?_⟩, trivial, trivial,
    ⟨text "800000", by decide, ?_⟩, trivial, trivial⟩
  · exact ⟨by decide, by decide, by decide⟩
  · exact ⟨by decide, by decide, by decide⟩

/-- Two calls for `off` in a row lose the limit. -/
theorem not_restored_after_off_off :
    ¬ ∀ (m : PowerModule) (fs : Sysfs) (events : List PowerEvent),
      (omapPowerInit m fs).1.inited = true → (fs .scalingMaxFreq).isSome →
      StepsMeet PowerState.step ChangesWhileOn (PowerState.init m fs) events →
      ∀ r ∈ (run PowerState.step (PowerState.init m fs) events).2,
        r.Restored := by
  intro h
  have hrestored := h .unset exampleSysfs
    [.setInteractive false, .setInteractive false, .setInteractive true]
    (by decide) rfl ⟨trivial, trivial, trivial, trivial⟩
    ⟨some (text "1200000\n"), some (text "600000")⟩ (by decide)
    (text "1200000\n") rfl
  exact absurd hrestored (by decide)

end TateFirmware.Power
