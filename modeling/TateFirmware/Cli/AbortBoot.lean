import Mathlib.Data.List.DropRight
import TateFirmware.LibGeneric.CString
import TateFirmware.Support.Memory

/-!
# Stopping the autoboot with a key string

With `CONFIG_AUTOBOOT_KEYED`, `abortboot` of `common/main.c` watches for up to four
key strings until the boot delay is over.  The last characters typed, as many as the
longest key has, are kept in `presskey`: a character that does not fit shifts the
others down by one.

The bound of that shift is one less than the length of the longest key, as an
unsigned number, so without any key a character typed makes it run far beyond
`presskey`.
-/

namespace TateFirmware.Cli

open LibGeneric Support

/-! ## The source -/

/-- `MAX_DELAY_STOP_STR`. -/
def maxDelayStopStr : ℕ := 32

/-- An entry of `delaykey`, without the length. -/
structure DelayKey where
  str : Option (List UInt8)
  retry : Bool

/-- The length of a key, at most `MAX_DELAY_STOP_STR`. -/
def DelayKey.len (key : DelayKey) : ℕ :=
  let len := (key.str.map List.length).getD 0
  if len > maxDelayStopStr then maxDelayStopStr else len

/-- The macros that give a key where the environment does not. -/
structure AutobootConfig where
  delayStr : Option (List UInt8)
  delayStr2 : Option (List UInt8)
  stopStr : Option (List UInt8)
  stopStr2 : Option (List UInt8)

/-- `delaykey`. -/
def delayKeys (getenv : List UInt8 → Option (List UInt8))
    (config : AutobootConfig) : List DelayKey :=
  [⟨(getenv (text "bootdelaykey")).or config.delayStr, true⟩,
    ⟨(getenv (text "bootdelaykey2")).or config.delayStr2, true⟩,
    ⟨(getenv (text "bootstopkey")).or config.stopStr, false⟩,
    ⟨(getenv (text "bootstopkey2")).or config.stopStr2, false⟩]

/-- `presskey_max`. -/
def presskeyMax (keys : List DelayKey) : ℕ :=
  keys.foldl (fun max key => if max > key.len then max else key.len) 0

/-- Cells that are read or written, of `presskey` or of a key string. -/
inductive KeyAccess where
  | presskey (start count : ℕ)
  | key (str : List UInt8) (start count : ℕ)

/-- The variables of the loop, with the cells accessed so far. -/
structure PressState where
  presskey : Memory UInt8
  presskeyLen : ℕ
  abort : Bool
  accesses : List KeyAccess

/-- What one pass of the loop finds: the clock, and the character typed if `tstc`
says there is one. -/
structure KeyRound where
  ticks : ℕ
  typed : Option UInt8

/-- The test of one key. -/
def PressState.testKey (st : PressState) (key : DelayKey) : PressState :=
  if 0 < key.len ∧ key.len ≤ st.presskeyLen then
    let str := key.str.getD []
    { st with
      accesses := st.accesses ++
        [.presskey (st.presskeyLen - key.len) key.len, .key str 0 key.len]
      abort := st.abort ||
        st.presskey.read (st.presskeyLen - key.len) key.len = str.take key.len }
  else st

/-- The loop that tests the keys. -/
def PressState.testKeys (st : PressState) (keys : List DelayKey) : PressState :=
  keys.foldl PressState.testKey st

/-- `presskey[i] = presskey[i + 1]` for all `i` below `count`. -/
def shiftDown (m : Memory UInt8) (count : ℕ) : Memory UInt8 :=
  (List.range count).foldl (fun m i => m.store i (m (i + 1))) m

/-- `presskey_max - 1`, an unsigned number. -/
def shiftCount (max : ℕ) : ℕ := (max + 2 ^ 32 - 1) % 2 ^ 32

/-- The character typed is kept. -/
def PressState.typeKey (st : PressState) (max : ℕ) : Option UInt8 → PressState
  | none => st
  | some c =>
      if st.presskeyLen < max then
        { st with
          presskey := st.presskey.store st.presskeyLen c
          presskeyLen := st.presskeyLen + 1
          accesses := st.accesses ++ [.presskey st.presskeyLen 1] }
      else
        let count := shiftCount max
        { st with
          presskey := (shiftDown st.presskey count).store count c
          accesses := st.accesses ++
            [.presskey 0 count, .presskey 1 count, .presskey count 1] }

/-- The loop of `abortboot` up to the time `etime`, and what it returns; `none` if
it still goes on behind the last round given. -/
def abortbootLoop (keys : List DelayKey) (etime : ℕ) :
    List KeyRound → PressState → PressState × Option ℕ
  | [], st => (st, if st.abort then some 1 else none)
  | r :: rounds, st =>
      if st.abort then (st, some 1)
      else if r.ticks ≤ etime then
        abortbootLoop keys etime rounds
          ((st.testKeys keys).typeKey (presskeyMax keys) r.typed)
      else (st, some 0)

/-- `abortboot`, with `presskey` as it happens to be. -/
def abortboot (getenv : List UInt8 → Option (List UInt8)) (config : AutobootConfig)
    (presskey : Memory UInt8) (etime : ℕ) (rounds : List KeyRound) :
    PressState × Option ℕ :=
  abortbootLoop (delayKeys getenv config) etime rounds ⟨presskey, 0, false, []⟩

/-! ## What it is for -/

/-- The characters of a key that count. -/
def DelayKey.cut (key : DelayKey) : List UInt8 :=
  (key.str.getD []).take maxDelayStopStr

/-- The characters typed in some rounds. -/
def typedIn (rounds : List KeyRound) : List UInt8 := rounds.filterMap KeyRound.typed

/-- The characters typed end with a key that is not empty. -/
def EndsWithKey (keys : List DelayKey) (typed : List UInt8) : Prop :=
  ∃ key ∈ keys, key.cut ≠ [] ∧ key.cut <:+ typed

/-- The rounds before the timeout. -/
def inTime (etime : ℕ) (rounds : List KeyRound) : List KeyRound :=
  rounds.takeWhile fun r => r.ticks ≤ etime

/-- At some test before the timeout the characters typed so far end with a key,
`typed` being those from earlier rounds. -/
def KeySeen (keys : List DelayKey) (etime : ℕ) (typed : List UInt8)
    (rounds : List KeyRound) : Prop :=
  ∃ k < (inTime etime rounds).length,
    EndsWithKey keys (typed ++ typedIn (rounds.take k))

/-- An access inside `presskey` or the key string. -/
def KeyAccess.Inside : KeyAccess → Prop
  | .presskey start count => start + count ≤ maxDelayStopStr
  | .key str start count => start + count ≤ str.length

/-! ## The window -/

/-- `presskey` holds the last characters typed, as many as the longest key has. -/
structure Window (st : PressState) (max : ℕ) (typed : List UInt8) : Prop where
  holds : st.presskey.Holds 0 (typed.rtake max)
  len_eq : st.presskeyLen = (typed.rtake max).length

theorem length_rtake (l : List UInt8) (n : ℕ) :
    (l.rtake n).length = min l.length n := by
  rw [List.rtake, List.length_drop]
  omega

theorem DelayKey.len_eq (key : DelayKey) : key.len = key.cut.length := by
  unfold DelayKey.len DelayKey.cut
  cases key.str with
  | none => rfl
  | some str =>
      simp only [Option.map_some, Option.getD_some, List.length_take]
      split_ifs <;> omega

theorem DelayKey.len_le (key : DelayKey) : key.len ≤ maxDelayStopStr := by
  rw [key.len_eq, DelayKey.cut, List.length_take]
  exact Nat.min_le_left _ _

theorem DelayKey.take_len (key : DelayKey) :
    (key.str.getD []).take key.len = key.cut := by
  rw [key.len_eq, DelayKey.cut, List.length_take]
  exact List.take_eq_take_min.symm

theorem foldl_max (keys : List DelayKey) (n : ℕ) :
    n ≤ keys.foldl (fun max key => if max > key.len then max else key.len) n ∧
      (∀ key ∈ keys, key.len ≤
        keys.foldl (fun max key => if max > key.len then max else key.len) n) ∧
      (n ≤ maxDelayStopStr →
        keys.foldl (fun max key => if max > key.len then max else key.len) n ≤
          maxDelayStopStr) := by
  induction keys generalizing n with
  | nil => exact ⟨le_refl n, by simp, id⟩
  | cons key keys ih =>
      have hle := key.len_le
      obtain ⟨hn, hkeys, hmax⟩ := ih (if n > key.len then n else key.len)
      rw [List.foldl_cons]
      refine ⟨?_, ?_, fun hstart => hmax ?_⟩
      · split_ifs at hn ⊢ <;> omega
      · intro k hk
        rcases List.mem_cons.mp hk with rfl | hk
        · split_ifs at hn ⊢ <;> omega
        · exact hkeys k hk
      · split_ifs <;> omega

theorem len_le_presskeyMax {keys : List DelayKey} {key : DelayKey}
    (h : key ∈ keys) : key.len ≤ presskeyMax keys :=
  (foldl_max keys 0).2.1 key h

theorem presskeyMax_le (keys : List DelayKey) :
    presskeyMax keys ≤ maxDelayStopStr :=
  (foldl_max keys 0).2.2 (Nat.zero_le _)

theorem presskeyMax_eq_zero {keys : List DelayKey}
    (h : ∀ key ∈ keys, key.cut = []) : presskeyMax keys = 0 := by
  unfold presskeyMax
  induction keys with
  | nil => rfl
  | cons key keys ih =>
      rw [List.forall_mem_cons] at h
      rw [List.foldl_cons, key.len_eq, h.1]
      exact ih h.2

/-- What shifting the cells below `count` leaves. -/
theorem shiftDown_apply (m : Memory UInt8) (count k : ℕ) :
    shiftDown m count k = if k < count then m (k + 1) else m k := by
  unfold shiftDown
  induction count generalizing k with
  | zero => rfl
  | succ count ih =>
      rw [List.range_succ, List.foldl_append]
      simp only [List.foldl_cons, List.foldl_nil, Memory.store, ih]
      split_ifs <;> first | rfl | omega | simp_all

namespace Window

variable {st : PressState} {max : ℕ} {typed : List UInt8}

theorem start (m : Memory UInt8) (max : ℕ) : Window ⟨m, 0, false, []⟩ max [] := by
  refine ⟨?_, ?_⟩ <;> simp

/-- The last characters in the window are the last ones typed. -/
theorem read_eq_iff (h : Window st max typed) {cut : List UInt8}
    (hcut : cut.length ≤ max) (hlen : cut.length ≤ st.presskeyLen) :
    st.presskey.read (st.presskeyLen - cut.length) cut.length = cut ↔
      cut <:+ typed := by
  have hholds := h.holds
  rw [h.len_eq] at hlen ⊢
  rw [← List.take_append_drop ((typed.rtake max).length - cut.length)
    (typed.rtake max), Memory.holds_append] at hholds
  have hread := hholds.2.read_eq
  rw [List.length_take, Nat.min_eq_left (Nat.sub_le _ _), Nat.zero_add,
    List.length_drop, Nat.sub_sub_self hlen] at hread
  rw [hread, List.suffix_iff_eq_drop, List.rtake, List.length_drop,
    List.drop_drop, eq_comm]
  rw [length_rtake] at hlen
  have hdrop : typed.length - max + (typed.length - (typed.length - max) -
      cut.length) = typed.length - cut.length := by omega
  rw [hdrop]

/-- One test sets `abort` if the characters typed end with the key. -/
theorem testKey (h : Window st max typed) {key : DelayKey} (hkey : key.len ≤ max) :
    Window (st.testKey key) max typed ∧
      ((st.testKey key).abort = true ↔
        st.abort = true ∨ (key.cut ≠ [] ∧ key.cut <:+ typed)) := by
  have hempty : 0 < key.len ↔ key.cut ≠ [] := by
    rw [key.len_eq, List.length_pos_iff]
  unfold PressState.testKey
  split
  · rename_i htest
    refine ⟨⟨h.holds, h.len_eq⟩, ?_⟩
    dsimp only
    rw [Bool.or_eq_true, decide_eq_true_eq, key.take_len]
    have hne := hempty.mp htest.1
    rw [key.len_eq] at hkey htest ⊢
    rw [h.read_eq_iff hkey htest.2]
    simp [hne]
  · rename_i htest
    refine ⟨h, (or_iff_left ?_).symm⟩
    rintro ⟨hne, hsuffix⟩
    refine htest ⟨hempty.mpr hne, ?_⟩
    have hlen := hsuffix.length_le
    rw [h.len_eq, length_rtake]
    rw [key.len_eq] at hkey ⊢
    omega

theorem testKeys (h : Window st max typed) {keys : List DelayKey}
    (hkeys : ∀ key ∈ keys, key.len ≤ max) :
    Window (st.testKeys keys) max typed ∧
      ((st.testKeys keys).abort = true ↔
        st.abort = true ∨ EndsWithKey keys typed) := by
  unfold PressState.testKeys EndsWithKey
  induction keys generalizing st with
  | nil => simpa using h
  | cons key keys ih =>
      rw [List.forall_mem_cons] at hkeys
      obtain ⟨hwindow, habort⟩ := h.testKey hkeys.1
      obtain ⟨hwindow', habort'⟩ := ih hwindow hkeys.2
      refine ⟨hwindow', ?_⟩
      rw [List.foldl_cons, habort', habort, or_assoc]
      simp only [List.mem_cons, exists_eq_or_imp]

/-- The character typed is the last one in the window. -/
theorem typeKey (h : Window st max typed) (hmax : 0 < max) (hlt : max < 2 ^ 32)
    (c : UInt8) : Window (st.typeKey max (some c)) max (typed ++ [c]) := by
  obtain ⟨m, rfl⟩ : ∃ m, max = m + 1 := ⟨max - 1, by omega⟩
  have hlen := h.len_eq
  have hcount : shiftCount (m + 1) = m := by
    rw [shiftCount, show m + 1 + 2 ^ 32 - 1 = m + 2 ^ 32 by omega,
      Nat.add_mod_right, Nat.mod_eq_of_lt (by omega)]
  rw [length_rtake] at hlen
  have hconcat := List.rtake_concat_succ typed m c
  unfold PressState.typeKey
  dsimp only
  split
  · rename_i hroom
    have hall : typed.rtake (m + 1) = typed ∧ typed.rtake m = typed := by
      constructor <;>
      · rw [List.rtake, Nat.sub_eq_zero_of_le (by omega), List.drop_zero]
    have hholds := h.holds
    rw [hall.1] at hholds
    refine ⟨?_, ?_⟩
    · rw [hconcat, hall.2]
      refine Memory.Holds.append (hholds.congr fun k _ hk => ?_) ?_
      · exact Memory.store_of_ne c (by omega)
      · rw [Memory.holds_singleton, hlen,
          show 0 + typed.length = min typed.length (m + 1) by omega]
        exact Memory.store_same _ _ _
    · rw [length_rtake, List.length_append, List.length_singleton]
      dsimp only
      omega
  · rename_i hfull
    have hholds := h.holds
    refine ⟨?_, ?_⟩
    · rw [hconcat, hcount]
      have hdrop : typed.rtake m = (typed.rtake (m + 1)).drop 1 := by
        rw [List.rtake, List.rtake, List.drop_drop,
          show typed.length - (m + 1) + 1 = typed.length - m by omega]
      have hlenm : (typed.rtake m).length = m := by
        rw [length_rtake]
        omega
      refine Memory.Holds.append ?_ ?_
      · intro k hk
        rw [hlenm] at hk
        dsimp only
        rw [Nat.zero_add, Memory.store_of_ne c (by omega), shiftDown_apply,
          if_pos hk]
        have hcell := hholds (k + 1) (by rw [length_rtake]; omega)
        rw [Nat.zero_add] at hcell
        rw [hcell]
        simp only [hdrop, List.getElem_drop, Nat.add_comm 1 k]
      · rw [Memory.holds_singleton, hlenm, Nat.zero_add]
        exact Memory.store_same _ _ _
    · rw [length_rtake, List.length_append, List.length_singleton]
      dsimp only
      omega

end Window

/-! ## Accesses -/

/-- All accesses so far are inside. -/
def PressState.AllInside (st : PressState) : Prop := ∀ a ∈ st.accesses, a.Inside

theorem testKeys_inside {st : PressState} (keys : List DelayKey)
    (h : st.AllInside) (hlen : st.presskeyLen ≤ maxDelayStopStr) :
    (st.testKeys keys).AllInside := by
  unfold PressState.testKeys
  induction keys generalizing st with
  | nil => exact h
  | cons key keys ih =>
      have hkey : (st.testKey key).AllInside ∧
          (st.testKey key).presskeyLen = st.presskeyLen := by
        unfold PressState.testKey
        split
        · refine ⟨fun a ha => ?_, rfl⟩
          rcases List.mem_append.mp ha with ha | ha
          · exact h a ha
          · simp only [List.mem_cons, List.not_mem_nil, or_false] at ha
            rcases ha with rfl | rfl
            · simp only [KeyAccess.Inside]
              omega
            · have hcut := key.len_eq
              rw [DelayKey.cut, List.length_take] at hcut
              simp only [KeyAccess.Inside]
              omega
        · exact ⟨h, rfl⟩
      exact ih hkey.1 (hkey.2 ▸ hlen)

theorem typeKey_inside {st : PressState} {max : ℕ} (h : st.AllInside)
    (hmax : 0 < max) (hle : max ≤ maxDelayStopStr) (c : UInt8) :
    (st.typeKey max (some c)).AllInside := by
  have hcount : shiftCount max + 1 = max := by
    have h32 : maxDelayStopStr = 32 := rfl
    unfold shiftCount
    omega
  unfold PressState.typeKey
  dsimp only
  split
  · intro a ha
    rcases List.mem_append.mp ha with ha | ha
    · exact h a ha
    · obtain rfl := List.mem_singleton.mp ha
      simp only [KeyAccess.Inside]
      omega
  · intro a ha
    rcases List.mem_append.mp ha with ha | ha
    · exact h a ha
    · simp only [List.mem_cons, List.not_mem_nil, or_false] at ha
      rcases ha with rfl | rfl | rfl <;>
      · simp only [KeyAccess.Inside]
        omega

/-- Without a key the shift runs out of `presskey`. -/
theorem typeKey_outside (st : PressState) (c : UInt8) :
    ¬ (st.typeKey 0 (some c)).AllInside := by
  intro h
  have hcount : shiftCount 0 = 2 ^ 32 - 1 := by decide
  have hmem : KeyAccess.presskey 0 (shiftCount 0) ∈
      (st.typeKey 0 (some c)).accesses := by
    simp [PressState.typeKey]
  have hinside : 0 + shiftCount 0 ≤ maxDelayStopStr := h _ hmem
  rw [hcount] at hinside
  exact absurd hinside (by decide)

/-! ## The loop -/

theorem abortbootLoop_of_abort {keys : List DelayKey} {etime : ℕ}
    (rounds : List KeyRound) {st : PressState} (h : st.abort = true) :
    abortbootLoop keys etime rounds st = (st, some 1) := by
  cases rounds with
  | nil => rw [abortbootLoop, if_pos h]
  | cons r rounds => rw [abortbootLoop, if_pos h]

theorem inTime_cons {etime : ℕ} {r : KeyRound} {rounds : List KeyRound}
    (h : r.ticks ≤ etime) : inTime etime (r :: rounds) = r :: inTime etime rounds := by
  rw [inTime, List.takeWhile_cons, if_pos (by simpa using h)]
  rfl

/-- What is seen from a round before the timeout on. -/
theorem keySeen_cons {keys : List DelayKey} {etime : ℕ} {typed : List UInt8}
    {r : KeyRound} {rounds : List KeyRound} (h : r.ticks ≤ etime) :
    KeySeen keys etime typed (r :: rounds) ↔
      EndsWithKey keys typed ∨
        KeySeen keys etime (typed ++ r.typed.toList) rounds := by
  have htyped : ∀ k, typed ++ typedIn ((r :: rounds).take (k + 1)) =
      typed ++ r.typed.toList ++ typedIn (rounds.take k) := by
    intro k
    rw [List.take_succ_cons, List.append_assoc]
    cases hr : r.typed <;> simp [typedIn, hr]
  unfold KeySeen
  rw [inTime_cons h, List.length_cons]
  constructor
  · rintro ⟨k, hk, hends⟩
    cases k with
    | zero =>
        rw [List.take_zero, typedIn, List.filterMap_nil, List.append_nil] at hends
        exact Or.inl hends
    | succ k =>
        rw [htyped] at hends
        exact Or.inr ⟨k, Nat.lt_of_succ_lt_succ hk, hends⟩
  · rintro (hends | ⟨k, hk, hends⟩)
    · refine ⟨0, Nat.succ_pos _, ?_⟩
      rwa [List.take_zero, typedIn, List.filterMap_nil, List.append_nil]
    · exact ⟨k + 1, Nat.succ_lt_succ hk, by rwa [htyped]⟩

theorem not_keySeen_of_late {keys : List DelayKey} {etime : ℕ}
    {typed : List UInt8} {r : KeyRound} {rounds : List KeyRound}
    (h : ¬ r.ticks ≤ etime) : ¬ KeySeen keys etime typed (r :: rounds) := by
  rintro ⟨k, hk, -⟩
  rw [inTime, List.takeWhile_cons, if_neg (by simpa using h)] at hk
  exact absurd hk (Nat.not_lt_zero k)

/-- What `abortboot` is for: it stays inside its buffers, returns 1 exactly if a key
is seen, and returns when the time is over. -/
structure AbortsRight (keys : List DelayKey) (etime : ℕ) (typed : List UInt8)
    (rounds : List KeyRound) (result : PressState × Option ℕ) : Prop where
  inside : result.1.AllInside
  one_iff : result.2 = some 1 ↔ KeySeen keys etime typed rounds
  returns : (∃ r ∈ rounds, etime < r.ticks) → result.2.isSome

/-- There is a key, or no character is typed before the timeout. -/
def KeyOrSilence (keys : List DelayKey) (etime : ℕ) (rounds : List KeyRound) :
    Prop :=
  (∃ key ∈ keys, key.cut ≠ []) ∨ ∀ r ∈ inTime etime rounds, r.typed = none

@[simp] theorem typeKey_abort (st : PressState) (max : ℕ) (typed : Option UInt8) :
    (st.typeKey max typed).abort = st.abort := by
  unfold PressState.typeKey
  cases typed with
  | none => rfl
  | some c =>
      dsimp only
      split <;> rfl

/-- The character of a round, where there is a key or no character. -/
theorem Window.typeRound {st : PressState} {keys : List DelayKey} {etime : ℕ}
    {typed : List UInt8} {r : KeyRound} {rounds : List KeyRound}
    (hok : KeyOrSilence keys etime (r :: rounds)) (htime : r.ticks ≤ etime)
    (hwindow : Window st (presskeyMax keys) typed) (hinside : st.AllInside) :
    Window (st.typeKey (presskeyMax keys) r.typed) (presskeyMax keys)
        (typed ++ r.typed.toList) ∧
      (st.typeKey (presskeyMax keys) r.typed).AllInside := by
  have hle := presskeyMax_le keys
  cases hr : r.typed with
  | none =>
      rw [Option.toList_none, List.append_nil]
      exact ⟨hwindow, hinside⟩
  | some c =>
      have hmax : 0 < presskeyMax keys := by
        rcases hok with ⟨key, hkey, hne⟩ | hsilent
        · have hlen := len_le_presskeyMax hkey
          rw [key.len_eq] at hlen
          exact (List.length_pos_of_ne_nil hne).trans_le hlen
        · have hnone := hsilent r (by rw [inTime_cons htime]; simp)
          rw [hr] at hnone
          cases hnone
      exact ⟨hwindow.typeKey hmax (hle.trans_lt (by decide)) c,
        typeKey_inside hinside hmax hle c⟩

theorem abortbootLoop_right {keys : List DelayKey} {etime : ℕ}
    {rounds : List KeyRound} {st : PressState} {typed : List UInt8}
    (hok : KeyOrSilence keys etime rounds)
    (hwindow : Window st (presskeyMax keys) typed) (hinside : st.AllInside)
    (habort : st.abort = false) :
    AbortsRight keys etime typed rounds (abortbootLoop keys etime rounds st) := by
  induction rounds generalizing st typed with
  | nil =>
      rw [abortbootLoop, if_neg (by simp [habort])]
      refine ⟨hinside, iff_of_false (by simp) ?_, by simp⟩
      rintro ⟨k, hk, -⟩
      exact absurd hk (Nat.not_lt_zero k)
  | cons r rounds ih =>
      rw [abortbootLoop, if_neg (by simp [habort])]
      by_cases htime : r.ticks ≤ etime
      · rw [if_pos htime]
        obtain ⟨htests, hseen⟩ := hwindow.testKeys
          (fun key hkey => len_le_presskeyMax hkey)
        have hlen : st.presskeyLen ≤ maxDelayStopStr := by
          have hle := presskeyMax_le keys
          rw [hwindow.len_eq, length_rtake]
          omega
        obtain ⟨hnext, hnextInside⟩ := htests.typeRound hok htime
          (testKeys_inside keys hinside hlen)
        simp only [habort, Bool.false_eq_true, false_or] at hseen
        cases hab : (st.testKeys keys).abort with
        | true =>
            -- the key has been seen: the loop ends whatever follows
            rw [abortbootLoop_of_abort rounds (by rw [typeKey_abort, hab])]
            exact ⟨hnextInside, iff_of_true rfl
              ((keySeen_cons htime).mpr (Or.inl (hseen.mp hab))), by simp⟩
        | false =>
            have hok' : KeyOrSilence keys etime rounds :=
              hok.imp_right fun hsilent e he =>
                hsilent e (by rw [inTime_cons htime]; exact List.mem_cons_of_mem r he)
            obtain ⟨hall, hone, hreturns⟩ := ih hok' hnext hnextInside
              (by rw [typeKey_abort, hab])
            refine ⟨hall, ?_, ?_⟩
            · rw [hone, keySeen_cons htime, or_iff_right]
              intro hends
              rw [hseen.mpr hends] at hab
              cases hab
            · rintro ⟨e, he, hlate⟩
              rcases List.mem_cons.mp he with rfl | he
              · omega
              · exact hreturns ⟨e, he, hlate⟩
      · rw [if_neg htime]
        exact ⟨hinside, iff_of_false (by simp) (not_keySeen_of_late htime),
          by simp⟩

/-! ## Without a key -/

theorem accesses_mono {keys : List DelayKey} {etime : ℕ} {rounds : List KeyRound}
    {st : PressState} {a : KeyAccess} (ha : a ∈ st.accesses) :
    a ∈ (abortbootLoop keys etime rounds st).1.accesses := by
  have htests : ∀ {st : PressState} (keys : List DelayKey), a ∈ st.accesses →
      a ∈ (st.testKeys keys).accesses := by
    intro st keys ha
    unfold PressState.testKeys
    induction keys generalizing st with
    | nil => exact ha
    | cons key keys ih =>
        refine ih ?_
        unfold PressState.testKey
        split
        · exact List.mem_append_left _ ha
        · exact ha
  have htype : ∀ {st : PressState} (max : ℕ) (typed : Option UInt8),
      a ∈ st.accesses → a ∈ (st.typeKey max typed).accesses := by
    intro st max typed ha
    cases typed with
    | none => exact ha
    | some c =>
        unfold PressState.typeKey
        dsimp only
        split <;> exact List.mem_append_left _ ha
  induction rounds generalizing st with
  | nil => exact ha
  | cons r rounds ih =>
      rw [abortbootLoop]
      split
      · exact ha
      · split
        · exact ih (htype _ _ (htests keys ha))
        · exact ha

theorem abortbootLoop_outside {keys : List DelayKey} {etime : ℕ}
    {rounds : List KeyRound} {st : PressState} (hkeys : ∀ key ∈ keys, key.cut = [])
    (habort : st.abort = false)
    (htyped : ∃ r ∈ inTime etime rounds, r.typed ≠ none) :
    ¬ (abortbootLoop keys etime rounds st).1.AllInside := by
  have htests : st.testKeys keys = st := by
    unfold PressState.testKeys
    induction keys with
    | nil => rfl
    | cons key keys ih =>
        rw [List.forall_mem_cons] at hkeys
        have hkey : st.testKey key = st := by
          rw [PressState.testKey, key.len_eq, hkeys.1]
          exact if_neg (fun h => absurd h.1 (Nat.lt_irrefl 0))
        rw [List.foldl_cons, hkey]
        exact ih hkeys.2
  induction rounds with
  | nil =>
      obtain ⟨r, hr, -⟩ := htyped
      cases hr
  | cons r rounds ih =>
      obtain ⟨e, he, hne⟩ := htyped
      have htime : r.ticks ≤ etime := by
        by_contra hlate
        rw [inTime, List.takeWhile_cons, if_neg (by simpa using hlate)] at he
        cases he
      rw [abortbootLoop, if_neg (by simp [habort]), if_pos htime, htests,
        presskeyMax_eq_zero hkeys]
      cases hr : r.typed with
      | none =>
          rw [inTime_cons htime] at he
          rcases List.mem_cons.mp he with rfl | he
          · exact absurd hr hne
          · exact ih ⟨e, he, hne⟩
      | some c =>
          intro hall
          exact typeKey_outside st c fun a ha => hall a (accesses_mono ha)

/-- The keyed `abortboot` does what it is for if and only if there is a key or no
character is typed before the timeout. -/
theorem abortboot_right_iff (getenv : List UInt8 → Option (List UInt8))
    (config : AutobootConfig) (presskey : Memory UInt8) (etime : ℕ)
    (rounds : List KeyRound) :
    AbortsRight (delayKeys getenv config) etime [] rounds
        (abortboot getenv config presskey etime rounds) ↔
      KeyOrSilence (delayKeys getenv config) etime rounds := by
  constructor
  · intro hright
    by_contra hnot
    simp only [KeyOrSilence, not_or, not_exists, not_and, not_not, not_forall] at hnot
    obtain ⟨hkeys, r, hr, hne⟩ := hnot
    exact abortbootLoop_outside hkeys rfl ⟨r, hr, hne⟩ hright.inside
  · intro hok
    exact abortbootLoop_right hok (Window.start presskey _)
      (fun a ha => nomatch ha) rfl

/-- No key is set, and a character is typed at once. -/
theorem abortboot_no_key_not_right :
    ¬ ∀ (getenv : List UInt8 → Option (List UInt8)) (config : AutobootConfig)
      (presskey : Memory UInt8) (etime : ℕ) (rounds : List KeyRound),
      AbortsRight (delayKeys getenv config) etime [] rounds
        (abortboot getenv config presskey etime rounds) := by
  intro h
  have hright := h (fun _ => none) ⟨none, none, none, none⟩ (fun _ => 0) 100
    [⟨7, some (ch ' ')⟩]
  exact abortbootLoop_outside (by decide) rfl ⟨⟨7, some (ch ' ')⟩, by simp [inTime], by decide⟩
    hright.inside

end TateFirmware.Cli
