import TateFirmware.Console.Devices
import TateFirmware.Support.Run
import Mathlib.Tactic.FinCases

/-!
# Console devices over runs

In a run that registers, deregisters and assigns devices, the assigned entries
of `stdio_devices` keep designating the device of the same name as long as the
list stays where it is while an entry is assigned, and as long as the names
saved in the first two rows of `temp_names` fit their rows.  A deregistration
that removes a device writes past the end of `temp_names`.
-/

namespace TateFirmware.Console

open LibGeneric Support

/-! ## The invariants -/

/-- Every assigned entry points to an item of the name it was assigned. -/
def Designates (w : World) : Prop :=
  ∀ l n, w.assigned l = some n →
    ∃ i d, w.dev.items[i]? = some d ∧
      w.dev.stdio l = itemPtr w.dev.base i ∧ d.name = n

/-- The list holds the devices registered and not deregistered, in order. -/
def Listed (w : World) : Prop := w.dev.items = w.registered

/-- Item `i` is assigned. -/
def IsAssigned (s : Devices) (i : ℕ) : Prop :=
  ∃ l, s.stdio l = itemPtr s.base i

/-- A device of that name is found, and it is not assigned. -/
def FoundFree (s : Devices) (devname : List UInt8) : Prop :=
  ∃ i, s.items.findIdx? (fun d => d.name = devname) = some i ∧
    ¬ IsAssigned s i

/-- The system before any device is registered. -/
def start (base listSize : ℕ) (stdio : Fin maxFiles → ℕ) : World where
  dev := ⟨base, listSize, [], stdio⟩
  registered := []
  assigned := fun _ => none

/-! ## The conditions on the steps -/

/-- There is room for the item, or memory for a larger list. -/
def Allocates (w : World) : Event → Prop
  | .register _ realloc =>
      w.dev.items.length < w.dev.listSize ∨ realloc ≠ none
  | _ => True

/-- The list does not move while an entry is assigned. -/
def Stays (w : World) : Event → Prop
  | .register _ realloc =>
      w.dev.items.length < w.dev.listSize ∨ realloc = some w.dev.base ∨
        ∀ l, w.assigned l = none
  | _ => True

/-- Where a device is removed, the names assigned to the first two entries fit
the rows of `temp_names`. -/
def ShortNames (w : World) : Event → Prop
  | .deregister devname _ _ =>
      FoundFree w.dev devname →
        ∀ l : Fin maxFiles, l.1 < 2 →
          ∀ n, w.assigned l = some n → n.length < 8
  | _ => True

/-- No device is removed. -/
def KeepsAll (w : World) : Event → Prop
  | .deregister devname _ _ => ¬ FoundFree w.dev devname
  | _ => True

/-- The pointers survive the step. -/
def PointersKept (w : World) (e : Event) : Prop :=
  Allocates w e ∧ Stays w e ∧ ShortNames w e

/-- The step does all it should. -/
def Meets (w : World) (e : Event) : Prop :=
  Allocates w e ∧ Stays w e ∧ KeepsAll w e

theorem pointersKept_of_meets {w : World} {e : Event} (h : Meets w e) :
    PointersKept w e := by
  obtain ⟨halloc, hstays, hkeeps⟩ := h
  refine ⟨halloc, hstays, ?_⟩
  cases e with
  | register d realloc => trivial
  | deregister devname elsewhere stack =>
      intro hfree
      exact absurd hfree hkeeps
  | assign file i => trivial

/-! ## The temporary names -/

theorem itemPtr_injective {base i j : ℕ} (h : itemPtr base i = itemPtr base j) :
    i = j := by
  unfold itemPtr itemSize at h
  omega

theorem stdioName_length (s : Devices) (elsewhere : Memory UInt8)
    (l : Fin maxFiles) : (stdioName s elsewhere l).length = 16 := by
  unfold stdioName
  cases hfind : (List.range s.items.length).find?
      (fun i => s.stdio l = itemPtr s.base i) with
  | none => simp
  | some i =>
      have hi : i < s.items.length :=
        List.mem_range.mp (List.mem_of_find?_eq_some hfind)
      simp [hi, Device.nameField_length]

theorem stdioName_of_item {s : Devices} {l : Fin maxFiles} {i : ℕ} {d : Device}
    (elsewhere : Memory UInt8) (hitem : s.items[i]? = some d)
    (hptr : s.stdio l = itemPtr s.base i) :
    stdioName s elsewhere l = d.nameField := by
  obtain ⟨hi, hd⟩ := List.getElem?_eq_some_iff.mp hitem
  have hfind : (List.range s.items.length).find?
      (fun i => decide (s.stdio l = itemPtr s.base i)) = some i := by
    rw [List.find?_range_eq_some]
    refine ⟨by simpa using hptr, List.mem_range.mpr hi, ?_⟩
    intro j hj
    simp only [Bool.not_eq_true', decide_eq_false_iff_not]
    intro hjptr
    have := itemPtr_injective (hptr.symm.trans hjptr)
    omega
  unfold stdioName
  rw [hfind]
  simp [hi, hd]

theorem saveNames_of_free {s : Devices} {elsewhere : Memory UInt8} {dev : ℕ}
    {ls : List (Fin maxFiles)} (h : ∀ l ∈ ls, s.stdio l ≠ dev)
    (temp : TrackedMemory UInt8) :
    saveNames s elsewhere dev ls temp =
      (false, ls.foldl
        (fun t l => t.copyIn (8 * l.1) (stdioName s elsewhere l)) temp) := by
  induction ls generalizing temp with
  | nil => rfl
  | cons l ls ih =>
      rw [saveNames, if_neg (h l (by simp)), List.foldl_cons]
      exact ih (fun k hk => h k (List.mem_cons_of_mem _ hk)) _

theorem finRange_maxFiles : List.finRange maxFiles = [0, 1, 2] := rfl

/-- An assigned device is found before the row of the last entry is written. -/
theorem saveNames_of_assigned {s : Devices} (elsewhere : Memory UInt8)
    {dev : ℕ} (h : ∃ l, s.stdio l = dev) (stack : Memory UInt8) :
    ∃ temp, temp.high ≤ tempNamesSize ∧
      saveNames s elsewhere dev (List.finRange maxFiles) ⟨stack, 0⟩ =
        (true, temp) := by
  have hzero : (TrackedMemory.mk stack 0).high ≤ tempNamesSize := Nat.zero_le _
  have hrow : ∀ l : Fin maxFiles, l.1 < 2 →
      8 * l.1 + (stdioName s elsewhere l).length ≤ tempNamesSize := by
    intro l hl
    rw [stdioName_length, tempNamesSize]
    omega
  rw [finRange_maxFiles]
  by_cases h0 : s.stdio 0 = dev
  · exact ⟨_, hzero, by simp [saveNames, h0]⟩
  · have hhigh0 := TrackedMemory.copyIn_high_le hzero (hrow 0 (by decide))
    by_cases h1 : s.stdio 1 = dev
    · exact ⟨_, hhigh0, by simp [saveNames, h0, h1]⟩
    · have hhigh1 := TrackedMemory.copyIn_high_le hhigh0 (hrow 1 (by decide))
      have h2 : s.stdio 2 = dev := by
        obtain ⟨l, hl⟩ := h
        fin_cases l
        · exact absurd hl h0
        · exact absurd hl h1
        · exact hl
      exact ⟨_, hhigh1, by simp [saveNames, h0, h1, h2]⟩

/-- The rows of `temp_names`: the bytes of a name that the row after it does
not overwrite, and all bytes of the last name. -/
theorem savedNames_cell {s : Devices} {elsewhere : Memory UInt8}
    (temp : TrackedMemory UInt8) (l : Fin maxFiles) {k : ℕ}
    (hk : k < (stdioName s elsewhere l).length) (hrow : k < 8 ∨ l = 2) :
    ((List.finRange maxFiles).foldl
        (fun t l => t.copyIn (8 * l.1) (stdioName s elsewhere l))
        temp).cell (8 * l.1 + k) = (stdioName s elsewhere l)[k] := by
  have hlast : ∀ (m : Memory UInt8) (l' : Fin maxFiles), l < l' → k < 8 →
      m.copyIn (8 * l'.1) (stdioName s elsewhere l') (8 * l.1 + k) =
        m (8 * l.1 + k) := by
    intro m l' hlt hk8
    have : l.1 < l'.1 := hlt
    exact Memory.copyIn_of_lt _ (by omega)
  rw [finRange_maxFiles]
  simp only [List.foldl_cons, List.foldl_nil, TrackedMemory.copyIn_cell]
  fin_cases l
  · have hk8 : k < 8 := hrow.resolve_right (by decide)
    rw [hlast _ 2 (by decide) hk8, hlast _ 1 (by decide) hk8]
    exact Memory.copyIn_add hk
  · have hk8 : k < 8 := hrow.resolve_right (by decide)
    rw [hlast _ 2 (by decide) hk8]
    exact Memory.copyIn_add hk
  · exact Memory.copyIn_add hk

/-- The names that are saved when a device is removed reach eight bytes past
the end of `temp_names`. -/
theorem savedNames_high (s : Devices) (elsewhere stack : Memory UInt8) :
    ((List.finRange maxFiles).foldl
        (fun t l => t.copyIn (8 * l.1) (stdioName s elsewhere l))
        (TrackedMemory.mk stack 0)).high = tempNamesSize + 8 := by
  have hne : ∀ l, stdioName s elsewhere l ≠ [] := by
    intro l
    rw [← List.length_pos_iff, stdioName_length]
    decide
  rw [finRange_maxFiles]
  simp [TrackedMemory.copyIn, hne, stdioName_length, tempNamesSize]

/-! ## Reassigning -/

theorem cstr_append_zero {buf : List UInt8} (h : (0 : UInt8) ∈ buf) :
    ∃ rest, buf = cstr buf ++ 0 :: rest := by
  induction buf with
  | nil => exact absurd h (by simp)
  | cons b buf ih =>
      by_cases hb : b = 0
      · exact ⟨buf, by simp [cstr, hb]⟩
      · obtain ⟨rest, hrest⟩ := ih (by simpa [Ne.symm hb] using h)
        refine ⟨rest, ?_⟩
        have hcons : cstr (b :: buf) = b :: cstr buf := by simp [cstr, hb]
        rw [hcons, List.cons_append, ← hrest]

/-- Only one string stands at a place in memory. -/
theorem holds_string_unique {xs ys : List UInt8} {m : Memory UInt8} {p : ℕ}
    (hxs : (0 : UInt8) ∉ xs) (hys : (0 : UInt8) ∉ ys)
    (hmx : m.Holds p (xs ++ [0])) (hmy : m.Holds p (ys ++ [0])) : xs = ys := by
  induction xs generalizing ys p with
  | nil =>
      cases ys with
      | nil => rfl
      | cons y ys =>
          have hy : m p = y := (Memory.holds_cons.mp hmy).1
          have hzero : m p = 0 := Memory.holds_singleton.mp hmx
          exact absurd (by simp [← hy, hzero]) hys
  | cons x xs ih =>
      obtain ⟨hx, hmx⟩ := Memory.holds_cons.mp hmx
      cases ys with
      | nil =>
          have hzero : m p = 0 := Memory.holds_singleton.mp hmy
          exact absurd (by simp [← hx, hzero]) hxs
      | cons y ys =>
          obtain ⟨hy, hmy⟩ := Memory.holds_cons.mp hmy
          rw [ih (fun hmem => hxs (by simp [hmem]))
            (fun hmem => hys (by simp [hmem])) hmx hmy, ← hx, ← hy]

/-- A C string in memory is equal to itself only. -/
theorem strcmpEq_iff {name other : List UInt8} {m : Memory UInt8} {p : ℕ}
    (hname : (0 : UInt8) ∉ name) (hother : (0 : UInt8) ∉ other)
    (hm : m.Holds p (other ++ [0])) :
    strcmpEq name m p = true ↔ name = other := by
  unfold strcmpEq
  rw [beq_iff_eq]
  constructor
  · intro hread
    apply holds_string_unique hname hother _ hm
    rw [Memory.holds_iff_read]
    simpa using hread
  · rintro rfl
    simpa using hm.read_eq

/-- After the loop an entry points to the last item whose name it has saved,
or where it pointed before when there is none. -/
theorem reassign_apply (temp : Memory UInt8) (base : ℕ) (l : Fin maxFiles)
    (i : ℕ) (ds : List Device) (stdio : Fin maxFiles → ℕ) :
    (∃ j d, ds[j]? = some d ∧ strcmpEq d.name temp (8 * l.1) = true ∧
        reassign temp base i ds stdio l = itemPtr base (i + j)) ∨
      (∀ d ∈ ds, strcmpEq d.name temp (8 * l.1) = false) ∧
        reassign temp base i ds stdio l = stdio l := by
  induction ds generalizing i stdio with
  | nil => exact Or.inr ⟨by simp, rfl⟩
  | cons d ds ih =>
      rw [reassign]
      rcases ih (i + 1) _ with ⟨j, d', hj, hcmp, heq⟩ | ⟨hnone, heq⟩
      · refine Or.inl ⟨j + 1, d', by simpa using hj, hcmp, ?_⟩
        rw [heq, Nat.add_assoc, Nat.add_comm 1]
      · cases hcmp : strcmpEq d.name temp (8 * l.1) with
        | true =>
            refine Or.inl ⟨0, d, rfl, hcmp, ?_⟩
            rw [heq]
            simp [hcmp]
        | false =>
            refine Or.inr ⟨?_, ?_⟩
            · simpa [hcmp] using hnone
            · rw [heq]
              simp [hcmp]

/-! ## Deregistering -/

/-- The names in `temp_names` when a device is removed. -/
def savedNames (s : Devices) (elsewhere stack : Memory UInt8) :
    Memory UInt8 :=
  ((List.finRange maxFiles).foldl
    (fun t l => t.copyIn (8 * l.1) (stdioName s elsewhere l))
    (TrackedMemory.mk stack 0)).cell

theorem deviceDeregister_notFound {devname : List UInt8} {s : Devices}
    (elsewhere stack : Memory UInt8)
    (h : s.items.findIdx? (fun d => d.name = devname) = none) :
    deviceDeregister devname elsewhere stack s = (⟨0, 0⟩, s) := by
  unfold deviceDeregister
  rw [h]

/-- Deregistering an assigned device changes nothing. -/
theorem deviceDeregister_assigned {devname : List UInt8} {s : Devices} {i : ℕ}
    (elsewhere stack : Memory UInt8)
    (h : s.items.findIdx? (fun d => d.name = devname) = some i)
    (hassigned : IsAssigned s i) :
    ∃ high, high ≤ tempNamesSize ∧
      deviceDeregister devname elsewhere stack s = (⟨-1, high⟩, s) := by
  obtain ⟨temp, hhigh, hsave⟩ := saveNames_of_assigned elsewhere hassigned stack
  refine ⟨temp.high, hhigh, ?_⟩
  unfold deviceDeregister
  rw [h]
  simp only [hsave]

theorem deviceDeregister_free {devname : List UInt8} {s : Devices} {i : ℕ}
    (elsewhere stack : Memory UInt8)
    (h : s.items.findIdx? (fun d => d.name = devname) = some i)
    (hfree : ¬ IsAssigned s i) :
    deviceDeregister devname elsewhere stack s =
      (⟨0, tempNamesSize + 8⟩,
        { s with
          items := s.items.eraseIdx i
          stdio := reassign (savedNames s elsewhere stack) s.base 0
            (s.items.eraseIdx i) s.stdio }) := by
  have hne : ∀ l ∈ List.finRange maxFiles, s.stdio l ≠ itemPtr s.base i :=
    fun l _ hl => hfree ⟨l, hl⟩
  unfold deviceDeregister
  rw [h]
  simp only [saveNames_of_free hne, savedNames_high]
  rfl

/-- A deregistration stays within `temp_names` exactly when it removes no
device. -/
theorem deviceDeregister_high_iff (devname : List UInt8)
    (elsewhere stack : Memory UInt8) (s : Devices) :
    (deviceDeregister devname elsewhere stack s).1.high ≤ tempNamesSize ↔
      ¬ FoundFree s devname := by
  cases hfind : s.items.findIdx? (fun d => d.name = devname) with
  | none =>
      rw [deviceDeregister_notFound elsewhere stack hfind]
      simp [FoundFree, hfind]
  | some i =>
      by_cases hassigned : IsAssigned s i
      · obtain ⟨high, hhigh, heq⟩ :=
          deviceDeregister_assigned elsewhere stack hfind hassigned
        rw [heq]
        simp [FoundFree, hfind, hassigned, hhigh]
      · rw [deviceDeregister_free elsewhere stack hfind hassigned]
        simp [FoundFree, hfind, hassigned]

theorem name_notMem (d : Device) : (0 : UInt8) ∉ d.name :=
  zero_notMem_cstr d.nameField

/-- The row of an entry holds the name of the device it points to, if the name
fits or the row is the last one. -/
theorem savedNames_holds {s : Devices} {l : Fin maxFiles} {j : ℕ} {d : Device}
    (elsewhere stack : Memory UInt8) (hitem : s.items[j]? = some d)
    (hptr : s.stdio l = itemPtr s.base j)
    (hfits : l.1 < 2 → d.name.length < 8) :
    (savedNames s elsewhere stack).Holds (8 * l.1) (d.name ++ [0]) := by
  obtain ⟨rest, hrest⟩ := cstr_append_zero d.terminated
  have hname := stdioName_of_item elsewhere hitem hptr
  intro k hk
  have hlen : (d.name ++ [0]).length ≤ d.nameField.length := by
    rw [hrest]
    simp [Device.name]
  have hk' : k < (stdioName s elsewhere l).length := by
    rw [hname]
    omega
  have hrow : k < 8 ∨ l = 2 := by
    by_cases hl : l.1 < 2
    · have := hfits hl
      simp only [List.length_append, List.length_singleton] at hk
      omega
    · right
      apply Fin.ext
      have : l.1 < 3 := l.2
      show l.1 = 2
      omega
  rw [savedNames, savedNames_cell _ l hk' hrow]
  simp only [hname]
  have hpre : d.name ++ [0] <+: d.nameField := by
    refine ⟨rest, ?_⟩
    rw [List.append_assoc]
    exact hrest.symm
  exact (List.IsPrefix.getElem hpre hk).symm

/-- Removing a device leaves an entry that pointed to another one pointing to
an item of the name it had. -/
theorem reassign_designates {s : Devices} {l : Fin maxFiles} {i j : ℕ}
    {d : Device} (elsewhere stack : Memory UInt8)
    (hitem : s.items[j]? = some d) (hptr : s.stdio l = itemPtr s.base j)
    (hne : j ≠ i) (hfits : l.1 < 2 → d.name.length < 8) :
    ∃ k d', (s.items.eraseIdx i)[k]? = some d' ∧
      reassign (savedNames s elsewhere stack) s.base 0 (s.items.eraseIdx i)
        s.stdio l = itemPtr s.base k ∧ d'.name = d.name := by
  have hholds := savedNames_holds elsewhere stack hitem hptr hfits
  have hcmp : ∀ d' : Device,
      strcmpEq d'.name (savedNames s elsewhere stack) (8 * l.1) = true ↔
        d'.name = d.name :=
    fun d' => strcmpEq_iff (name_notMem d') (name_notMem d) hholds
  rcases reassign_apply (savedNames s elsewhere stack) s.base l 0
      (s.items.eraseIdx i) s.stdio with ⟨k, d', hk, hd', heq⟩ | ⟨hnone, -⟩
  · refine ⟨k, d', hk, ?_, (hcmp d').mp hd'⟩
    rw [heq, Nat.zero_add]
  · have hmem : d ∈ s.items.eraseIdx i := by
      rw [List.mem_eraseIdx_iff_getElem?]
      exact ⟨j, hne, hitem⟩
    have := hnone d hmem
    rw [(hcmp d).mpr rfl] at this
    exact absurd this (by decide)

/-! ## Steps -/

theorem deviceRegister_items {d : Device} {realloc : Option ℕ} {s : Devices}
    (h : s.items.length < s.listSize ∨ realloc ≠ none) :
    (deviceRegister d realloc s).items = s.items ++ [d] := by
  unfold deviceRegister listInsertItem expandListSpace
  split
  · rename_i hfull
    obtain ⟨base, rfl⟩ :=
      Option.ne_none_iff_exists'.mp (h.resolve_left (by omega))
    rfl
  · rfl

theorem deviceRegister_stdio (d : Device) (realloc : Option ℕ) (s : Devices) :
    (deviceRegister d realloc s).stdio = s.stdio := by
  unfold deviceRegister listInsertItem expandListSpace
  split
  · cases realloc <;> rfl
  · rfl

theorem deviceRegister_base {d : Device} {realloc : Option ℕ} {s : Devices}
    (h : s.items.length < s.listSize ∨ realloc = some s.base) :
    (deviceRegister d realloc s).base = s.base := by
  unfold deviceRegister listInsertItem expandListSpace
  split
  · rename_i hfull
    rw [h.resolve_left (by omega)]
    rfl
  · rfl

theorem listed_step {w : World} {e : Event} (halloc : Allocates w e)
    (h : Listed w) : Listed (step w e).1 := by
  cases e with
  | register d realloc =>
      show (deviceRegister d realloc w.dev).items = w.registered ++ [d]
      rw [deviceRegister_items halloc, h]
  | deregister devname elsewhere stack =>
      unfold Listed at h ⊢
      simp only [step]
      cases hfind : w.dev.items.findIdx? (fun d => d.name = devname) with
      | none =>
          rw [deviceDeregister_notFound elsewhere stack hfind, if_pos rfl,
            ← h, List.eraseP_of_forall_not]
          simpa using List.findIdx?_eq_none_iff.mp hfind
      | some i =>
          by_cases hassigned : IsAssigned w.dev i
          · obtain ⟨high, -, heq⟩ :=
              deviceDeregister_assigned elsewhere stack hfind hassigned
            rw [heq]
            simpa using h
          · rw [deviceDeregister_free elsewhere stack hfind hassigned,
              if_pos rfl, ← h, List.eraseP_eq_eraseIdx, hfind]
  | assign file i =>
      unfold Listed at h ⊢
      simp only [step]
      cases w.dev.items[i]? <;> exact h

theorem designates_step {w : World} {e : Event} (hkept : PointersKept w e)
    (h : Designates w) : Designates (step w e).1 := by
  obtain ⟨halloc, hstays, hshort⟩ := hkept
  cases e with
  | register d realloc =>
      intro l n hl
      obtain ⟨i, d', hi, hptr, hn⟩ := h l n hl
      have hbase : (deviceRegister d realloc w.dev).base = w.dev.base := by
        apply deviceRegister_base
        rcases hstays with hroom | hsame | hnone
        · exact Or.inl hroom
        · exact Or.inr hsame
        · exact absurd ((hnone l).symm.trans hl) (by simp)
      refine ⟨i, d', ?_, ?_, hn⟩
      · show (deviceRegister d realloc w.dev).items[i]? = some d'
        rw [deviceRegister_items halloc]
        exact List.getElem?_append_left
          (List.getElem?_eq_some_iff.mp hi).1 ▸ hi
      · show (deviceRegister d realloc w.dev).stdio l = itemPtr
          (deviceRegister d realloc w.dev).base i
        rw [deviceRegister_stdio, hbase, hptr]
  | deregister devname elsewhere stack =>
      intro l n hl
      obtain ⟨j, d, hj, hptr, hn⟩ := h l n hl
      show ∃ i d, (deviceDeregister devname elsewhere stack w.dev).2.items[i]? =
          some d ∧ (deviceDeregister devname elsewhere stack w.dev).2.stdio l =
            itemPtr (deviceDeregister devname elsewhere stack w.dev).2.base i ∧
          d.name = n
      cases hfind : w.dev.items.findIdx? (fun d => d.name = devname) with
      | none =>
          rw [deviceDeregister_notFound elsewhere stack hfind]
          exact ⟨j, d, hj, hptr, hn⟩
      | some i =>
          by_cases hassigned : IsAssigned w.dev i
          · obtain ⟨high, -, heq⟩ :=
              deviceDeregister_assigned elsewhere stack hfind hassigned
            rw [heq]
            exact ⟨j, d, hj, hptr, hn⟩
          · have hne : j ≠ i := by
              rintro rfl
              exact hassigned ⟨l, hptr⟩
            have hfits : l.1 < 2 → d.name.length < 8 := by
              intro hlt
              rw [hn]
              exact hshort ⟨i, hfind, hassigned⟩ l hlt n hl
            rw [deviceDeregister_free elsewhere stack hfind hassigned]
            simpa [hn] using
              reassign_designates elsewhere stack hj hptr hne hfits
  | assign file i =>
      simp only [step]
      cases hi : w.dev.items[i]? with
      | none => exact h
      | some d =>
          intro l n hl
          by_cases hfile : l = file
          · subst hfile
            have hn : d.name = n := by simpa using hl
            exact ⟨i, d, hi, by simp, hn⟩
          · have hl' : w.assigned l = some n := by simpa [hfile] using hl
            obtain ⟨j, d', hj, hptr, hn⟩ := h l n hl'
            exact ⟨j, d', hj, by simpa [hfile] using hptr, hn⟩

/-! ## Runs -/

/-- The pointers survive also where the names saved overrun their buffer, as
long as what the buffer should have held is still there. -/
theorem run_pointersKept {w : World} {events : List Event}
    (hmeet : StepsMeet step PointersKept w events)
    (hw : Designates w ∧ Listed w) :
    Designates (run step w events).1 ∧ Listed (run step w events).1 := by
  refine run_invariant_of_stepsMeet
    (P := fun w => Designates w ∧ Listed w) ?_ hw hmeet
  rintro w e hkept ⟨hdesignates, hlisted⟩
  exact ⟨designates_step hkept hdesignates, listed_step hkept.1 hlisted⟩

theorem step_high_le {w : World} {e : Event} (hmeets : Meets w e) :
    ∀ o ∈ (step w e).2, o.high ≤ tempNamesSize := by
  cases e with
  | register d realloc => simp [step]
  | deregister devname elsewhere stack =>
      intro o ho
      obtain rfl : o = _ := List.mem_singleton.mp ho
      exact (deviceDeregister_high_iff _ _ _ _).mpr hmeets.2.2
  | assign file i =>
      simp only [step]
      cases w.dev.items[i]? <;> simp

/-- What holds after a run: entries designate the devices they were assigned,
the list holds the registered devices, an assigned device cannot be
deregistered, and the temporary buffer was not overrun. -/
structure Sound (w : World) (reports : List Deregistered) : Prop where
  designates : Designates w
  listed : Listed w
  unchanged : ∀ devname elsewhere stack i,
    w.dev.items.findIdx? (fun d => d.name = devname) = some i →
    IsAssigned w.dev i →
    (deviceDeregister devname elsewhere stack w.dev).2 = w.dev
  within : ∀ report ∈ reports, report.high ≤ tempNamesSize

/-- A run is sound in which no device is removed, the list finds the memory to
grow, and does not move while an entry is assigned; and in any state it is the
removal of a device that overruns the temporary buffer. -/
theorem devices_run (base listSize : ℕ) (stdio : Fin maxFiles → ℕ)
    (events : List Event)
    (hmeet : StepsMeet step Meets (start base listSize stdio) events) :
    Sound (run step (start base listSize stdio) events).1
        (run step (start base listSize stdio) events).2 ∧
      ∀ w devname elsewhere stack,
        (∀ report ∈ (step w (.deregister devname elsewhere stack)).2,
          report.high ≤ tempNamesSize) ↔ ¬ FoundFree w.dev devname := by
  constructor
  · have hstart : Designates (start base listSize stdio) ∧
        Listed (start base listSize stdio) := by
      refine ⟨?_, rfl⟩
      intro l n hl
      exact absurd hl (by simp [start])
    obtain ⟨hdesignates, hlisted⟩ :=
      run_pointersKept (hmeet.mono fun _ _ => pointersKept_of_meets)
        hstart
    refine ⟨hdesignates, hlisted, ?_, ?_⟩
    · intro devname elsewhere stack i hfind hassigned
      obtain ⟨high, -, heq⟩ :=
        deviceDeregister_assigned elsewhere stack hfind hassigned
      rw [heq]
    · exact run_outputs_of_stepsMeet (fun _ _ => step_high_le) hmeet
  · intro w devname elsewhere stack
    rw [← deviceDeregister_high_iff devname elsewhere stack]
    simp [step]

/-- A device with a name of at most 15 characters. -/
def deviceNamed (name : List UInt8) (h : name.length < 16) : Device where
  nameField := name ++ List.replicate (16 - name.length) 0
  nameField_length := by simp; omega
  terminated := by
    refine List.mem_append_right _ (List.mem_replicate.mpr ⟨?_, rfl⟩)
    omega
  fields := []

theorem serial_length : (text "serial").length < 16 := by decide

theorem nulldev_length : (text "nulldev").length < 16 := by decide

local instance fileNeZero : NeZero 3 := ⟨by decide⟩

/-- `serial` and `nulldev`, registered; `serial` assigned to all files. -/
def serialAndNull : List Event :=
  [.register (deviceNamed (text "serial") serial_length) none,
    .register (deviceNamed (text "nulldev") nulldev_length) none,
    .assign 0 0, .assign 1 0, .assign 2 0]

theorem devices_run_serial :
    Sound (run step (start 4096 4 fun _ => 0)
        (serialAndNull ++ [.deregister (text "serial") (fun _ => 0)
          (fun _ => 0)])).1
      (run step (start 4096 4 fun _ => 0)
        (serialAndNull ++ [.deregister (text "serial") (fun _ => 0)
          (fun _ => 0)])).2 := by
  have hroom : ∀ w d realloc, w.dev.items.length < w.dev.listSize →
      Meets w (.register d realloc) :=
    fun w d realloc h => ⟨Or.inl h, Or.inl h, trivial⟩
  have hassign : ∀ w file i, Meets w (.assign file i) :=
    fun w file i => ⟨trivial, trivial, trivial⟩
  have hmeet : StepsMeet step Meets (start 4096 4 fun _ => 0)
      (serialAndNull ++ [.deregister (text "serial") (fun _ => 0)
        (fun _ => 0)]) := by
    refine ⟨hroom _ _ _ (by decide), hroom _ _ _ (by decide), hassign _ _ _,
      hassign _ _ _, hassign _ _ _, ⟨trivial, trivial, ?_⟩, trivial⟩
    rintro ⟨i, hi, hfree⟩
    obtain rfl : 0 = i := Option.some.inj hi
    exact hfree ⟨0, rfl⟩
  exact (devices_run 4096 4 (fun _ => 0) _ hmeet).1

/-- Removing `nulldev` writes eight bytes past the end of `temp_names`. -/
theorem not_sound_deregister :
    ¬ ∀ base listSize stdio events,
      Sound (run step (start base listSize stdio) events).1
        (run step (start base listSize stdio) events).2 := by
  intro h
  have hwithin := (h 4096 4 (fun _ => 0)
    (serialAndNull ++ [.deregister (text "nulldev") (fun _ => 0)
      (fun _ => 0)])).within
  exact absurd (hwithin ⟨0, 32⟩ (by decide)) (by decide)

end TateFirmware.Console
