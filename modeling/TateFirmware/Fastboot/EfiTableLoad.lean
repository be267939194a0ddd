import TateFirmware.Fastboot.EfiTable
import Mathlib.Data.List.Nodup

/-!
# Importing the partition table

`add_ptn` fills the entries of the table one after the other.  `load_ptbl`
reads the header and all but the last four entries, and registers the
partitions with fastboot, which takes the first 16 of them.
-/

namespace TateFirmware.Fastboot

open LibGeneric Support

/-! ## Entries -/

/-- The partition that an entry stands for. -/
def PtnCall.entry (call : PtnCall) : Ptentry where
  name := (cstr call.name).take 15
  start := call.first
  length := (call.last - call.first + 1) * 512
  flags :=
    if (cstr call.name).take 15 = text "environment" then flagsWriteEnv else 0

/-- The entry of a call stands at `p`. -/
structure EntryAt (m : Memory UInt8) (p : ℕ) (call : PtnCall) : Prop where
  type : m.Holds p partitionType
  first : m.leWord64 (p + 32) = call.first
  last : m.leWord64 (p + 40) = call.last
  name : ∀ i < 15, m (p + 56 + 2 * i) = (cstr call.name).getD i 0

theorem EntryAt.congr {m m' : Memory UInt8} {p q : ℕ} {call : PtnCall}
    (h : EntryAt m p call) (hsame : ∀ k < 128, m' (q + k) = m (p + k)) :
    EntryAt m' q call := by
  refine ⟨?_, ?_, ?_, ?_⟩
  · intro k hk
    have hlen : partitionType.length = 16 := rfl
    rw [hsame k (by omega)]
    exact h.type k hk
  · rw [← h.first]
    refine Memory.leWord64_congr fun k hk => ?_
    rw [Nat.add_assoc, Nat.add_assoc]
    exact hsame (32 + k) (by omega)
  · rw [← h.last]
    refine Memory.leWord64_congr fun k hk => ?_
    rw [Nat.add_assoc, Nat.add_assoc]
    exact hsame (40 + k) (by omega)
  · intro i hi
    rw [← h.name i hi, Nat.add_assoc, Nat.add_assoc]
    exact hsame (56 + 2 * i) (by omega)

theorem flatMap_units_getD (name : List UInt8) (i : ℕ) :
    (name.flatMap fun c => [c, (0 : UInt8)]).getD (2 * i) 0 =
      name.getD i 0 := by
  induction name generalizing i with
  | nil => rfl
  | cons c name ih =>
      cases i with
      | zero => rfl
      | succ i =>
          have hindex : 2 * (i + 1) = 2 * i + 1 + 1 := by omega
          rw [List.flatMap_cons, hindex]
          exact ih i

theorem nameUnits_getD (name : List UInt8) {i : ℕ} (hi : i < efiNamelen) :
    (nameUnits name).getD (2 * i) 0 = (cstr name).getD i 0 := by
  rw [nameUnits, flatMap_units_getD, List.getD_eq_getElem?_getD,
    List.getD_eq_getElem?_getD, List.getElem?_take_of_lt hi]

theorem nameUnits_length_le (name : List UInt8) :
    (nameUnits name).length ≤ 72 := by
  have htake : ((cstr name).take efiNamelen).length ≤ efiNamelen :=
    List.length_take_le _ _
  have hlen : ∀ xs : List UInt8,
      (xs.flatMap fun c => [c, (0 : UInt8)]).length = 2 * xs.length := by
    intro xs
    induction xs with
    | nil => rfl
    | cons c xs ih =>
        rw [List.flatMap_cons, List.length_append, ih, List.length_cons,
          List.length_cons, List.length_cons, List.length_nil]
        omega
  rw [nameUnits, hlen]
  unfold efiNamelen at htake ⊢
  omega

/-- What `add_ptn` writes apart from the name. -/
def entryParts (n : ℕ) (call : PtnCall) : List (ℕ × List UInt8) :=
  [(0, partitionType), (16, UInt8.ofNat n :: randomUuid.tail),
    (32, leBytes64 call.first), (40, leBytes64 call.last)]

/-- The memory that `add_ptn` leaves. -/
def fillEntry (m : Memory UInt8) (n : ℕ) (call : PtnCall) : Memory UInt8 :=
  (m.writeParts (entryOffset n) (entryParts n call)).copyIn
    (entryOffset n + 56) (nameUnits call.name)

theorem entryParts_within {n : ℕ} {call : PtnCall} :
    ∀ part ∈ entryParts n call, part.1 + part.2.length ≤ 56 := by
  intro part hpart
  simp only [entryParts, List.mem_cons, List.not_mem_nil, or_false] at hpart
  rcases hpart with rfl | rfl | rfl | rfl
  · decide
  · simp [randomUuid]
  · simp
  · simp

theorem fillEntry_of_lt {m : Memory UInt8} {n k : ℕ} {call : PtnCall}
    (hk : k < entryOffset n) : fillEntry m n call k = m k := by
  rw [fillEntry, Memory.copyIn_of_lt _ (by omega),
    Memory.writeParts_of_outside]
  intro part _
  exact Or.inl (by omega)

theorem fillEntry_of_ge {m : Memory UInt8} {n k : ℕ} {call : PtnCall}
    (hk : entryOffset (n + 1) ≤ k) : fillEntry m n call k = m k := by
  have hname := nameUnits_length_le call.name
  have hoffset : entryOffset (n + 1) = entryOffset n + 128 := by
    unfold entryOffset efiEntrySize
    omega
  rw [fillEntry, Memory.copyIn_of_ge (by omega), Memory.writeParts_of_outside]
  intro part hpart
  have hwithin := entryParts_within part hpart
  exact Or.inr (by omega)

/-- A free entry becomes the entry of the call. -/
theorem fillEntry_entryAt {m : Memory UInt8} {n : ℕ} {call : PtnCall}
    (hfree : ∀ k < 128, m (entryOffset n + k) = 0)
    (hfirst : call.first < 2 ^ 64) (hlast : call.last < 2 ^ 64) :
    EntryAt (fillEntry m n call) (entryOffset n) call := by
  have hapart : (entryParts n call).Pairwise Memory.Apart := by
    simp [entryParts, Memory.Apart, partitionType, randomUuid]
  have hparts := Memory.holdsParts_writeParts m (entryOffset n) hapart
  have hholds : Memory.HoldsParts (fillEntry m n call) (entryOffset n)
      (entryParts n call) := by
    intro part hpart
    have hwithin := entryParts_within part hpart
    refine (hparts part hpart).congr ?_
    intro k _ hk
    exact Memory.copyIn_of_lt _ (by omega)
  refine ⟨?_, ?_, ?_, ?_⟩
  · exact hholds (0, partitionType) (by simp [entryParts])
  · have hword := (hholds (32, leBytes64 call.first)
      (by simp [entryParts])).leWord64
    rwa [Nat.mod_eq_of_lt hfirst] at hword
  · have hword := (hholds (40, leBytes64 call.last)
      (by simp [entryParts])).leWord64
    rwa [Nat.mod_eq_of_lt hlast] at hword
  · intro i hi
    have hbefore : (m.writeParts (entryOffset n) (entryParts n call))
        (entryOffset n + 56 + 2 * i) = 0 := by
      rw [Memory.writeParts_of_outside, Nat.add_assoc]
      · exact hfree (56 + 2 * i) (by omega)
      · intro part hpart
        have hwithin := entryParts_within part hpart
        exact Or.inr (by omega)
    have hge : ¬ entryOffset n + 56 + 2 * i < entryOffset n + 56 := by omega
    rw [fillEntry, Memory.copyIn, if_neg hge, hbefore,
      Nat.add_sub_cancel_left]
    exact nameUnits_getD call.name (by unfold efiNamelen; omega)

/-! ## Filling the table -/

/-- The table after the calls, all of which have been accepted. -/
structure Table (lastLba : ℕ) (m : Memory UInt8) (calls : List PtnCall) :
    Prop where
  magic : m.Holds 512 (text "EFI PART")
  gap : ∀ k, 640 ≤ k → k < 1024 → m k = 0
  header : headerLastLba m = lastLba
  count : calls.length ≤ efiEntries
  entries : ∀ n (hn : n < calls.length), EntryAt m (entryOffset n) calls[n]
  free : ∀ k, entryOffset calls.length ≤ k → k < ptableSize → m k = 0
  range : ∀ call ∈ calls,
    34 ≤ call.first ∧ call.first ≤ call.last ∧ call.last ≤ lastLba

theorem text_efiPart_length : (text "EFI PART").length = 8 := by decide

theorem startPtbl_table (ptbl : Memory UInt8) (blocks : ℕ) :
    Table ((blocks + 2 ^ 32 - 1) % 2 ^ 32) (startPtbl ptbl blocks) [] := by
  unfold startPtbl
  dsimp only
  generalize hlast : (blocks + 2 ^ 32 - 1) % 2 ^ 32 = last
  generalize hmbr : initMbr (ptbl.fill 0 ptableSize 0) last = mbr
  have hmbr0 : ∀ k, 512 ≤ k → k < ptableSize → mbr k = 0 := by
    intro k hge hlt
    rw [← hmbr, initMbr, Memory.writeParts_of_outside]
    · exact if_pos ⟨Nat.zero_le k, by omega⟩
    · intro part hpart
      simp only [List.mem_cons, List.not_mem_nil, or_false] at hpart
      rcases hpart with rfl | rfl | rfl | rfl | rfl
      all_goals exact Or.inr (by simp; omega)
  have hword : last < 2 ^ 64 := by
    have hmod := Nat.mod_lt (blocks + 2 ^ 32 - 1) (show 2 ^ 32 > 0 by decide)
    omega
  have hmagic := text_efiPart_length
  have huuid : randomUuid.length = 16 := rfl
  generalize hparts : [(0, text "EFI PART"), (8, leBytes efiVersion),
    (12, leBytes efiHeaderSize), (24, leBytes64 1), (32, leBytes64 last),
    (40, leBytes64 34), (48, leBytes64 last), (56, randomUuid),
    (72, leBytes64 2), (80, leBytes efiEntries),
    (84, leBytes efiEntrySize)] = parts
  have hapart : parts.Pairwise Memory.Apart := by
    rw [← hparts]
    simp [Memory.Apart, hmagic, huuid]
  have hwithin : ∀ part ∈ parts, part.1 + part.2.length ≤ 88 := by
    rw [← hparts]
    simp [hmagic, huuid]
  have hholds := Memory.holdsParts_writeParts mbr 512 hapart
  have hbehind : ∀ k, 600 ≤ k → k < ptableSize →
      mbr.writeParts 512 parts k = 0 := by
    intro k hge hlt
    rw [Memory.writeParts_of_outside]
    · exact hmbr0 k (by omega) hlt
    · intro part hpart
      have hpart' := hwithin part hpart
      exact Or.inr (by omega)
  have hsize : ptableSize = 17408 := rfl
  refine ⟨?_, ?_, ?_, ?_, ?_, ?_, ?_⟩
  · exact hholds (0, text "EFI PART") (by simp [← hparts])
  · intro k hge hlt
    exact hbehind k (by omega) (by omega)
  · have hlba := (hholds (48, leBytes64 last) (by simp [← hparts])).leWord64
    rwa [Nat.mod_eq_of_lt hword] at hlba
  · exact Nat.zero_le _
  · intro n hn
    exact absurd hn (Nat.not_lt_zero n)
  · intro k hge hlt
    have hoffset : entryOffset ([] : List PtnCall).length = 1024 := rfl
    exact hbehind k (by omega) hlt
  · intro call hcall
    exact absurd hcall List.not_mem_nil

theorem leWord64_zero {m : Memory UInt8} {p : ℕ} (h : ∀ k < 8, m (p + k) = 0) :
    m.leWord64 p = 0 := by
  have hzero : m.leWord64 p = Memory.leWord64 (fun _ => (0 : UInt8)) 0 :=
    Memory.leWord64_congr fun k hk => h k hk
  rw [hzero]
  rfl

section Calls

variable {lastLba : ℕ} {m m' : Memory UInt8} {calls : List PtnCall}
  {call : PtnCall}

theorem entryOffset_lt {n : ℕ} (hn : n < efiEntries) :
    entryOffset n + 128 ≤ ptableSize := by
  have hsize : ptableSize = 17408 := rfl
  unfold efiEntries at hn
  unfold entryOffset efiEntrySize
  omega

theorem Table.entryLastLba_ne_zero (h : Table lastLba m calls) {n : ℕ}
    (hn : n < calls.length) : entryLastLba m n ≠ 0 := by
  have hlast : entryLastLba m n = calls[n].last := (h.entries n hn).last
  obtain ⟨hfirst, horder, -⟩ := h.range _ (List.getElem_mem hn)
  omega

theorem Table.entryLastLba_end (h : Table lastLba m calls)
    (hroom : calls.length < efiEntries) :
    entryLastLba m calls.length = 0 := by
  have hlt := entryOffset_lt hroom
  refine leWord64_zero fun k hk => ?_
  exact h.free _ (by omega) (by omega)

/-- The first free entry is the one behind those of the calls. -/
theorem Table.freeEntry_eq (h : Table lastLba m calls) {n : ℕ}
    (hn : n ≤ calls.length) :
    freeEntry m n =
      if calls.length < efiEntries then some calls.length else none := by
  induction hrest : calls.length - n generalizing n with
  | zero =>
      have heq : n = calls.length := by omega
      subst heq
      rw [freeEntry]
      by_cases hroom : calls.length < efiEntries
      · rw [if_pos hroom, if_neg (by omega),
          if_neg (not_not_intro (h.entryLastLba_end hroom))]
      · rw [if_neg hroom, if_pos (by omega)]
  | succ rest ih =>
      have hcount := h.count
      have hlt : n < calls.length := by omega
      rw [freeEntry, if_neg (by omega), if_pos (h.entryLastLba_ne_zero hlt)]
      exact ih hlt (by omega)

/-- `add_ptn` as long as there are free entries. -/
theorem Table.addPtn_eq (h : Table lastLba m calls) :
    addPtn m call =
      if call.first < 34 ∨ lastLba < call.last ∨ efiEntries ≤ calls.length then
        none
      else some (fillEntry m calls.length call) := by
  unfold addPtn
  rw [h.header, h.freeEntry_eq (Nat.zero_le _)]
  by_cases hfirst : call.first < 34
  · rw [if_pos hfirst, if_pos (Or.inl hfirst)]
  rw [if_neg hfirst]
  by_cases hlast : lastLba < call.last
  · rw [if_pos hlast, if_pos (Or.inr (Or.inl hlast))]
  rw [if_neg hlast]
  by_cases hroom : calls.length < efiEntries
  · rw [if_pos hroom, if_neg (by omega)]
    rfl
  · rw [if_neg hroom, if_pos (Or.inr (Or.inr (by omega)))]

/-- A call that is accepted. -/
theorem Table.fill (h : Table lastLba m calls) (hlba : lastLba < 2 ^ 64)
    (hroom : calls.length < efiEntries) (hfirst : 34 ≤ call.first)
    (horder : call.first ≤ call.last) (hlast : call.last ≤ lastLba) :
    Table lastLba (fillEntry m calls.length call) (calls ++ [call]) := by
  have hoffset : ∀ n, entryOffset n = 1024 + 128 * n := fun _ => rfl
  have hlt := entryOffset_lt hroom
  have hlen : (calls ++ [call]).length = calls.length + 1 := by simp
  have hbelow : ∀ k, k < 1024 → fillEntry m calls.length call k = m k := by
    intro k hk
    exact fillEntry_of_lt (by rw [hoffset]; omega)
  have hmagic := text_efiPart_length
  refine ⟨?_, ?_, ?_, ?_, ?_, ?_, ?_⟩
  · refine h.magic.congr fun k _ hk => hbelow k (by omega)
  · intro k hge hk
    rw [hbelow k hk]
    exact h.gap k hge hk
  · rw [← h.header]
    exact Memory.leWord64_congr fun k hk => hbelow _ (by omega)
  · omega
  · intro n hn
    rcases Nat.lt_or_ge n calls.length with hold | hnew
    · rw [List.getElem_append_left hold]
      refine (h.entries n hold).congr fun k hk => ?_
      exact fillEntry_of_lt (by rw [hoffset, hoffset]; omega)
    · have heq : n = calls.length := by omega
      subst heq
      rw [List.getElem_concat_length]
      · exact fillEntry_entryAt (fun k hk => h.free _ (by omega) (by omega))
          (by omega) (by omega)
      · rfl
  · intro k hge hk
    rw [hlen] at hge
    rw [fillEntry_of_ge hge]
    refine h.free k ?_ hk
    rw [hoffset] at hge ⊢
    omega
  · intro c hc
    rcases List.mem_append.mp hc with hc | hc
    · exact h.range c hc
    · rw [List.mem_singleton.mp hc]
      exact ⟨hfirst, horder, hlast⟩

/-- The table after a sequence of calls. -/
theorem Table.addPtns (h : Table lastLba m calls) (hlba : lastLba < 2 ^ 64)
    {more : List PtnCall} (horder : ∀ c ∈ more, c.first ≤ c.last)
    (hadd : addPtns m more = some m') : Table lastLba m' (calls ++ more) := by
  induction more generalizing m calls with
  | nil =>
      have hm : m = m' := Option.some_inj.mp hadd
      subst hm
      rwa [List.append_nil]
  | cons c more ih =>
      have hstep : (addPtn m c).bind (fun m => Fastboot.addPtns m more) =
          some m' := hadd
      rw [h.addPtn_eq] at hstep
      split at hstep
      · cases hstep
      · rename_i haccept
        rw [Option.bind_some] at hstep
        have hc := h.fill hlba (by omega) (by omega)
          (horder c List.mem_cons_self) (by omega)
        have hmore := ih hc (fun d hd => horder d (List.mem_cons_of_mem c hd))
          hstep
        rwa [List.append_assoc] at hmore

/-- Calls in range are accepted until the table is full. -/
theorem Table.addPtns_isSome (h : Table lastLba m calls)
    (hlba : lastLba < 2 ^ 64) {more : List PtnCall}
    (hmore : ∀ c ∈ more, 34 ≤ c.first ∧ c.first ≤ c.last ∧ c.last ≤ lastLba)
    (hroom : calls.length + more.length ≤ efiEntries) :
    ∃ m', Fastboot.addPtns m more = some m' := by
  induction more generalizing m calls with
  | nil => exact ⟨m, rfl⟩
  | cons c more ih =>
      obtain ⟨hfirst, horder, hlast⟩ := hmore c List.mem_cons_self
      rw [List.length_cons] at hroom
      have hc := h.fill hlba (by omega) hfirst horder hlast
      have hstep : addPtn m c = some (fillEntry m calls.length c) := by
        rw [h.addPtn_eq, if_neg (by omega)]
      obtain ⟨m', hm'⟩ := ih hc
        (fun d hd => hmore d (List.mem_cons_of_mem c hd))
        (by rw [List.length_append, List.length_singleton]; omega)
      refine ⟨m', ?_⟩
      change (addPtn m c).bind (fun m => Fastboot.addPtns m more) = some m'
      rw [hstep, Option.bind_some, hm']

/-- The checksums are written beside what the table says. -/
theorem Table.endPtbl (h : Table lastLba m calls) :
    Table lastLba (endPtbl m) calls := by
  have hsame : ∀ k, (k < 528 ∨ 532 ≤ k ∧ k < 600 ∨ 604 ≤ k) →
      Fastboot.endPtbl m k = m k := by
    intro k hk
    unfold Fastboot.endPtbl
    rcases hk with hk | ⟨hge, hlt⟩ | hk
    · rw [Memory.copyIn_of_lt _ (by omega), Memory.copyIn_of_lt _ (by omega)]
    · rw [Memory.copyIn_of_ge (by simp; omega),
        Memory.copyIn_of_lt _ (by omega)]
    · rw [Memory.copyIn_of_ge (by simp; omega),
        Memory.copyIn_of_ge (by simp; omega)]
  have hmagic := text_efiPart_length
  have hoffset : ∀ n, entryOffset n = 1024 + 128 * n := fun _ => rfl
  refine ⟨?_, ?_, ?_, h.count, ?_, ?_, h.range⟩
  · exact h.magic.congr fun k _ hk => hsame k (by omega)
  · intro k hge hk
    rw [hsame k (by omega)]
    exact h.gap k hge hk
  · rw [← h.header]
    exact Memory.leWord64_congr fun k hk => hsame _ (by omega)
  · intro n hn
    refine (h.entries n hn).congr fun k hk => hsame _ ?_
    rw [hoffset]
    omega
  · intro k hge hk
    rw [hsame k (by rw [hoffset] at hge; omega)]
    exact h.free k hge hk

end Calls

/-! ## Importing -/

/-- The sectors of the table are read back. -/
def ReadsBack (mmcRead : ℕ → Option (Memory UInt8)) (m : Memory UInt8) :
    Prop :=
  ∀ s, 512 * (s + 1) ≤ ptableSize →
    ∃ data, mmcRead s = some data ∧ ∀ k < 512, data k = m (512 * s + k)

theorem read_eq_of_holds {m : Memory UInt8} {p n : ℕ} {l : List UInt8}
    (h : m.Holds p l) (hn : l.length = n) : m.read p n = l := by
  rw [← hn]
  exact h.read_eq

/-- What is registered depends on the bytes of the entry only. -/
theorem importEfiPartition_congr {m m' : Memory UInt8}
    (h : ∀ k < 128, m' k = m k) (ptable : List Ptentry) :
    importEfiPartition ptable m' = importEfiPartition ptable m := by
  have htype : m'.read 0 16 = m.read 0 16 :=
    Memory.read_congr fun k hk => by
      rw [Nat.zero_add]
      exact h k (by omega)
  have hname : entryName m' = entryName m := by
    unfold entryName
    congr 1
    apply List.map_congr_left
    intro n hn
    have hlt := List.mem_range.mp hn
    exact h (56 + 2 * n) (by omega)
  have hfirst : m'.leWord64 32 = m.leWord64 32 :=
    Memory.leWord64_congr fun k hk => h (32 + k) (by omega)
  have hlast : m'.leWord64 40 = m.leWord64 40 :=
    Memory.leWord64_congr fun k hk => h (40 + k) (by omega)
  unfold importEfiPartition
  rw [htype, hname, hfirst, hlast]

theorem range_map_getD (s : List UInt8) (n : ℕ) :
    (List.range n).map (fun i => s.getD i 0) =
      s.take n ++ List.replicate (n - s.length) 0 := by
  apply List.ext_getElem
  · simp only [List.length_map, List.length_range, List.length_append,
      List.length_take, List.length_replicate]
    omega
  · intro i hi hi'
    rw [List.getElem_map, List.getElem_range]
    rcases Nat.lt_or_ge i s.length with hlt | hge
    · rw [List.getElem_append_left (by
        rw [List.length_map, List.length_range] at hi
        rw [List.length_take]
        omega), List.getElem_take, List.getD_eq_getElem _ _ hlt]
    · rw [List.getElem_append_right (by
        rw [List.length_take]
        omega), List.getElem_replicate, List.getD_eq_default _ _ hge]

/-- The entry of a call is imported as its partition. -/
theorem EntryAt.imported {m : Memory UInt8} {call : PtnCall}
    (h : EntryAt m 0 call) (horder : call.first ≤ call.last)
    (hlast : call.last < 2 ^ 32) (ptable : List Ptentry) :
    importEfiPartition ptable m = fastbootFlashAddPtn call.entry ptable := by
  have htype : ¬ m.read 0 16 ≠ partitionType :=
    not_not_intro (read_eq_of_holds h.type rfl)
  have hfirst := h.first
  have hlastWord := h.last
  rw [Nat.zero_add] at hfirst hlastWord
  have hname : entryName m = (cstr call.name).take 15 := by
    have hunits : (List.range 15).map (fun n => m (56 + 2 * n)) =
        (List.range 15).map fun i => (cstr call.name).getD i 0 := by
      apply List.map_congr_left
      intro i hi
      have hbyte := h.name i (List.mem_range.mp hi)
      rwa [Nat.zero_add] at hbyte
    rw [entryName, hunits, range_map_getD, cstr_append_zeros]
    intro hmem
    exact zero_notMem_cstr call.name (List.mem_of_mem_take hmem)
  have hstart : call.first % 2 ^ 32 = call.first :=
    Nat.mod_eq_of_lt (by omega)
  have hlength : (call.last + 2 ^ 64 - call.first + 1) * 512 % 2 ^ 64 =
      (call.last - call.first + 1) * 512 := by
    omega
  unfold importEfiPartition
  rw [if_neg htype, hfirst, hlastWord, hname]
  dsimp only
  rw [hstart, hlength]
  rfl

/-- Another kind of entry is passed over. -/
theorem import_of_ne {m : Memory UInt8} (h : m 0 ≠ 0xa2)
    (ptable : List Ptentry) : importEfiPartition ptable m = ptable := by
  have htype : m.read 0 16 ≠ partitionType := by
    intro heq
    have hhead := congrArg (fun l => l.getD 0 0) heq
    exact h hhead
  unfold importEfiPartition
  rw [if_pos htype]

theorem fastbootFlashAddPtn_take (ptn : Ptentry) (ptns : List Ptentry) :
    fastbootFlashAddPtn ptn (ptns.take maxPtn) = (ptns ++ [ptn]).take maxPtn := by
  unfold fastbootFlashAddPtn
  rw [List.length_take]
  by_cases hlt : ptns.length < maxPtn
  · rw [if_pos (by omega), List.take_of_length_le hlt.le,
      List.take_of_length_le]
    rw [List.length_append, List.length_singleton]
    omega
  · rw [if_neg (by omega), List.take_append_of_le_length (by omega)]

/-- Register the `k`-th 128 bytes from the header on. -/
def importAt (m : Memory UInt8) (ptable : List Ptentry) (k : ℕ) :
    List Ptentry :=
  importEfiPartition ptable (m.shift (512 + efiEntrySize * k))

/-- The loop of `load_ptbl` imports four entries from each sector. -/
theorem loadEntries_eq {mmcRead : ℕ → Option (Memory UInt8)}
    {m : Memory UInt8} (hread : ReadsBack mmcRead m) {count n : ℕ}
    (hrange : n + count ≤ 32) (ptable : List Ptentry) :
    loadEntries mmcRead count n ptable =
      .loaded ((List.range' (4 * n) (4 * count)).foldl (importAt m) ptable) := by
  induction count generalizing n ptable with
  | zero => rfl
  | succ count ih =>
      have hsize : ptableSize = 17408 := rfl
      obtain ⟨data, hdata, hbytes⟩ := hread (1 + n) (by omega)
      have hfour : (List.range 4).foldl
          (fun ptable k =>
            importEfiPartition ptable (data.shift (efiEntrySize * k))) ptable =
          (List.range' (4 * n) 4).foldl (importAt m) ptable := by
        rw [List.range'_eq_map_range, List.foldl_map]
        apply List.foldl_ext
        intro ptable k hk
        have hk4 := List.mem_range.mp hk
        refine importEfiPartition_congr (fun j hj => ?_) ptable
        rw [Memory.shift_apply, Memory.shift_apply, efiEntrySize,
          hbytes _ (by omega)]
        congr 1
        omega
      have hsplit : List.range' (4 * n) (4 * (count + 1)) =
          List.range' (4 * n) 4 ++ List.range' (4 * (n + 1)) (4 * count) := by
        have hlen : 4 * (count + 1) = 4 + 4 * count := by omega
        have hstart : 4 * (n + 1) = 4 * n + 1 * 4 := by omega
        rw [hlen, hstart, List.range'_append]
      rw [loadEntries, hdata]
      dsimp only
      rw [hfour, ih (by omega), hsplit, List.foldl_append]

/-- The imports from the header on, entry by entry. -/
theorem Table.foldl_importAt {lastLba : ℕ} {m : Memory UInt8} {calls : List PtnCall}
    (h : Table lastLba m calls) (hlba : lastLba < 2 ^ 32) {n : ℕ}
    (hn : n ≤ efiEntries) :
    (List.range (4 + n)).foldl (importAt m) [] =
      ((calls.take n).map PtnCall.entry).take maxPtn := by
  have hoffset : ∀ k, 512 + efiEntrySize * (4 + k) = entryOffset k := by
    intro k
    unfold entryOffset efiEntrySize
    omega
  induction n with
  | zero =>
      have hmagic : m 512 = ch 'E' := by
        have hget := h.magic 0 (by decide)
        exact hget
      have h0 : importAt m [] 0 = [] := by
        refine import_of_ne ?_ []
        rw [Memory.shift_apply]
        change m 512 ≠ 0xa2
        rw [hmagic]
        decide
      have hgap : ∀ k, 0 < k → k < 4 → importAt m [] k = [] := by
        intro k hpos hk
        refine import_of_ne ?_ []
        rw [Memory.shift_apply, efiEntrySize,
          h.gap _ (by omega) (by omega)]
        decide
      change importAt m (importAt m (importAt m (importAt m [] 0) 1) 2) 3 = _
      rw [h0, hgap 1 (by decide) (by decide), hgap 2 (by decide) (by decide),
        hgap 3 (by decide) (by decide)]
      rfl
  | succ n ih =>
      have hlt : n < efiEntries := hn
      rw [← Nat.add_assoc, List.range_succ, List.foldl_append, ih hlt.le,
        List.foldl_cons, List.foldl_nil, importAt, hoffset]
      rcases Nat.lt_or_ge n calls.length with hcall | hend
      · obtain ⟨-, horder, hlast⟩ := h.range _ (List.getElem_mem hcall)
        have hentry : EntryAt (m.shift (entryOffset n)) 0 calls[n] :=
          (h.entries n hcall).congr fun k _ => by
            rw [Memory.shift_apply, Nat.zero_add]
        rw [hentry.imported horder (by omega), fastbootFlashAddPtn_take,
          List.take_add_one, List.getElem?_eq_getElem hcall, List.map_append]
        rfl
      · have hfree : (m.shift (entryOffset n)) 0 ≠ 0xa2 := by
          have hbound := entryOffset_lt hlt
          have hle : entryOffset calls.length ≤ entryOffset n := by
            unfold entryOffset efiEntrySize
            omega
          rw [Memory.shift_apply, h.free _ (by omega) (by omega)]
          decide
        have htake : calls.take n = calls := List.take_of_length_le hend
        have htake' : calls.take (n + 1) = calls :=
          List.take_of_length_le (by omega)
        rw [import_of_ne hfree, htake, htake']

/-- `load_ptbl` registers the first 16 partitions of the table. -/
theorem Table.load {lastLba : ℕ} {m : Memory UInt8} {calls : List PtnCall}
    (h : Table lastLba m calls) (hlba : lastLba < 2 ^ 32)
    {mmcRead : ℕ → Option (Memory UInt8)} (hread : ReadsBack mmcRead m) :
    loadPtbl mmcRead [] =
      .loaded ((calls.map PtnCall.entry).take maxPtn) := by
  obtain ⟨data, hdata, hbytes⟩ := hread 1 (by decide)
  have hmagic : ¬ data.read 0 8 ≠ text "EFI PART" := by
    refine not_not_intro (read_eq_of_holds ?_ text_efiPart_length)
    intro k hk
    have hlen := text_efiPart_length
    rw [Nat.zero_add, hbytes k (by omega)]
    exact h.magic k hk
  have hloop : (List.range' (4 * 0) (4 * (128 / 4))).foldl (importAt m) [] =
      (List.range (4 + 124)).foldl (importAt m) [] := by
    rw [List.range_eq_range']
  have hfirst : ((calls.take 124).map PtnCall.entry).take maxPtn =
      (calls.map PtnCall.entry).take maxPtn := by
    rw [List.map_take, List.take_take]
    rfl
  unfold loadPtbl
  rw [hdata]
  dsimp only
  rw [if_neg hmagic, loadEntries_eq hread (by decide), hloop,
    h.foldl_importAt hlba (by decide), hfirst]

/-- A partition is found by its name when the names are distinct. -/
theorem fastbootFlashFindPtn_of_nodup {ptable : List Ptentry}
    (hnodup : (ptable.map Ptentry.name).Nodup) {n : ℕ} {ptn : Ptentry}
    (hptn : ptable[n]? = some ptn) (hname : (0 : UInt8) ∉ ptn.name) :
    fastbootFlashFindPtn ptable ptn.name = some n := by
  obtain ⟨hn, rfl⟩ := List.getElem?_eq_some_iff.mp hptn
  rw [fastbootFlashFindPtn, cstr_of_notMem hname,
    List.findIdx?_eq_some_iff_getElem]
  refine ⟨hn, by simp, ?_⟩
  intro j hj heq
  have hjn : j < ptable.length := by omega
  have hnames : (ptable.map Ptentry.name).get ⟨j, by simpa using hjn⟩ =
      (ptable.map Ptentry.name).get ⟨n, by simpa using hn⟩ := by
    simpa using heq
  have hindex := (List.nodup_iff_injective_get.mp hnodup) hnames
  exact absurd (Fin.mk.inj_iff.mp hindex) (by omega)

theorem zero_notMem_entry_name (call : PtnCall) :
    (0 : UInt8) ∉ call.entry.name := by
  intro hmem
  exact zero_notMem_cstr call.name (List.mem_of_mem_take hmem)

/-- A table that has been filled by `add_ptn` and read back is registered up to
the first 16 partitions, and these are found by their names. -/
theorem loadPtbl_registers (ptbl : Memory UInt8) (blocks : ℕ)
    (calls : List PtnCall) (filled : Memory UInt8)
    (mmcRead : ℕ → Option (Memory UInt8))
    (horder : ∀ call ∈ calls, call.first ≤ call.last)
    (hadd : addPtns (startPtbl ptbl blocks) calls = some filled)
    (hread : ReadsBack mmcRead (endPtbl filled)) :
    loadPtbl mmcRead [] =
        .loaded ((calls.map PtnCall.entry).take maxPtn) ∧
      ((((calls.map PtnCall.entry).take maxPtn).map Ptentry.name).Nodup →
        ∀ n ptn, ((calls.map PtnCall.entry).take maxPtn)[n]? = some ptn →
          fastbootFlashFindPtn ((calls.map PtnCall.entry).take maxPtn)
            ptn.name = some n) := by
  have hlba : (blocks + 2 ^ 32 - 1) % 2 ^ 32 < 2 ^ 32 :=
    Nat.mod_lt _ (by decide)
  have htable := (startPtbl_table ptbl blocks).addPtns (by omega) horder hadd
  rw [List.nil_append] at htable
  refine ⟨htable.endPtbl.load hlba hread, ?_⟩
  intro hnodup n ptn hptn
  refine fastbootFlashFindPtn_of_nodup hnodup hptn ?_
  obtain ⟨call, -, rfl⟩ := List.mem_map.mp
    (List.mem_of_mem_take (List.mem_of_getElem? hptn))
  exact zero_notMem_entry_name call

/-- A partition of one sector. -/
def sectorCall (n : ℕ) : PtnCall where
  first := 34 + n
  last := 34 + n
  name := [UInt8.ofNat (65 + n)]

/-- The sectors of a table in memory. -/
def sectorsOf (m : Memory UInt8) (s : ℕ) : Option (Memory UInt8) :=
  some (m.shift (512 * s))

theorem sectorsOf_readsBack (m : Memory UInt8) : ReadsBack (sectorsOf m) m :=
  fun s _ => ⟨m.shift (512 * s), rfl, fun _ _ => rfl⟩

theorem addPtns_sectorCalls {n : ℕ} (hn : n ≤ 100) :
    ∃ filled, addPtns (startPtbl (fun _ => 0) 1000)
      ((List.range n).map sectorCall) = some filled := by
  have htable := startPtbl_table (fun _ => 0) 1000
  refine htable.addPtns_isSome (by decide) ?_ ?_
  · intro call hcall
    obtain ⟨k, hk, rfl⟩ := List.mem_map.mp hcall
    have hlt := List.mem_range.mp hk
    unfold sectorCall
    dsimp only
    omega
  · rw [List.length_map, List.length_range, List.length_nil, efiEntries]
    omega

/-- Of 17 partitions the first 16 are registered and found. -/
theorem loadPtbl_registers_sectorCalls :
    ∃ filled, addPtns (startPtbl (fun _ => 0) 1000)
        ((List.range 17).map sectorCall) = some filled ∧
      loadPtbl (sectorsOf (endPtbl filled)) [] =
        .loaded (((List.range 16).map sectorCall).map PtnCall.entry) ∧
      ∀ n ptn, (((List.range 16).map sectorCall).map PtnCall.entry)[n]? = some ptn →
        fastbootFlashFindPtn (((List.range 16).map sectorCall).map PtnCall.entry)
          ptn.name = some n := by
  obtain ⟨filled, hfilled⟩ := @addPtns_sectorCalls 17 (by decide)
  have hregisters := loadPtbl_registers (fun _ => 0) 1000
    ((List.range 17).map sectorCall) filled _ (by decide) hfilled
    (sectorsOf_readsBack _)
  exact ⟨filled, hfilled, hregisters.1, hregisters.2 (by decide)⟩

/-- Of 17 partitions the last one is not registered. -/
theorem not_loadPtbl_all :
    ∃ filled, addPtns (startPtbl (fun _ => 0) 1000)
        ((List.range 17).map sectorCall) = some filled ∧
      loadPtbl (sectorsOf (endPtbl filled)) [] ≠
        .loaded (((List.range 17).map sectorCall).map PtnCall.entry) := by
  obtain ⟨filled, hfilled⟩ := @addPtns_sectorCalls 17 (by decide)
  refine ⟨filled, hfilled, ?_⟩
  have horder : ∀ call ∈ (List.range 17).map sectorCall,
      call.first ≤ call.last := by decide
  have htable := (startPtbl_table (fun _ => 0) 1000).addPtns (by decide) horder
    hfilled
  rw [List.nil_append] at htable
  rw [htable.endPtbl.load (by decide) (sectorsOf_readsBack _)]
  intro heq
  have hlen := congrArg List.length (LoadResult.loaded.inj heq)
  exact absurd hlen (by decide)

end TateFirmware.Fastboot
