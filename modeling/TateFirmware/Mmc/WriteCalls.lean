import Mathlib.Algebra.BigOperators.Group.Finset.Basic
import Mathlib.Algebra.Order.Group.Int
import TateFirmware.Mmc.Sectors
import TateFirmware.Support.Fuel

/-!
# The write loop with any callees

`omap_mmc_write_sect` for whatever `mmc_send_cmd` and `mmc_write_data` return.
The loop counts down by the number of blocks that `mmc_write_data` reports, which
it does not check, so it is a loop that need not end.
-/

namespace TateFirmware.Mmc

open Support

/-! ## The code -/

/-- What the callees return in one pass of the loop. -/
structure PassReply where
  sendCmd : Command → ℕ
  writeData : ℤ

/-- A call of `mmc_write_data`: the argument of the write command, `num_sec_val`,
the blocks asked for, the place in the buffer, and the value returned. -/
structure BurstCall where
  argument : ℕ
  numSec : ℕ
  blocks : ℕ
  buf : ℕ
  ret : ℤ
deriving DecidableEq

/-- The variables of the loop, with the replies to come and the calls so far. -/
structure WriteState where
  replies : ℕ → PassReply
  argument : ℕ
  numSec : ℕ
  buf : ℕ
  calls : List BurstCall

/-- What the commands that open a burst of `blkCnt` blocks return. -/
def PassReply.open (reply : PassReply) (blkCnt : ℕ) : ℕ :=
  if 1 < blkCnt then
    if reply.sendCmd .cmd23 ≠ 1 then reply.sendCmd .cmd23
    else reply.sendCmd .cmd25
  else reply.sendCmd .cmd24

/-- One pass of the loop of `omap_mmc_write_sect`. -/
def writeSectRound (secInc : ℕ) (s : WriteState) :
    (ℕ × List BurstCall) ⊕ WriteState :=
  if s.numSec = 0 then .inl (1, s.calls)
  else
    let blkCnt := blkCntCurrentTns s.numSec
    let reply := s.replies 0
    if reply.open blkCnt ≠ 1 then .inl (reply.open blkCnt, s.calls)
    else
      let calls := s.calls ++
        [⟨s.argument, s.numSec, blkCnt, s.buf, reply.writeData⟩]
      if reply.writeData < 0 then .inl (1, calls)
      else
        let blkCnt := reply.writeData.toNat
        .inr {
          replies := fun i => s.replies (i + 1)
          argument := (s.argument + secInc * blkCnt) % 2 ^ 32
          numSec := numSecLeft s.numSec blkCnt
          buf := s.buf + mmcsdSectorSize * blkCnt
          calls := calls }

/-- The loop of `omap_mmc_write_sect`. -/
def writeSectLoop (secInc : ℕ) (s : WriteState) (fuel : ℕ) :
    Option (ℕ × List BurstCall) :=
  fuelLoop (fun s _ => some (writeSectRound secInc s)) fuel s

/-- `omap_mmc_write_sect`: the value returned, and the calls. -/
def writeSectCalls (replies : ℕ → PassReply) (mode : Mode)
    (numBytes startSec fuel : ℕ) : Option (ℕ × List BurstCall) :=
  if numSecVal numBytes = 0 then some (1, [])
  else
    writeSectLoop (secIncVal mode)
      ⟨replies, sectorArgument mode startSec, numSecVal numBytes, 0, []⟩ fuel

/-! ## The contract -/

/-- The sectors a call writes. -/
def BurstCall.sectors (mode : Mode) (c : BurstCall) : List ℕ :=
  (List.range c.blocks).map fun k => cardSector mode c.argument + k

/-- The places in the buffer it writes them from. -/
def BurstCall.sources (c : BurstCall) : List ℕ :=
  (List.range c.blocks).map fun k => c.buf + mmcsdSectorSize * k

/-- The commands are accepted and each burst is reported to have the number of
blocks asked for. -/
def Prompt (replies : ℕ → PassReply) (numSec : ℕ) : Prop :=
  ∀ i, 0xFFFF * i < numSec → (∀ cmd, (replies i).sendCmd cmd = 1) ∧
    (replies i).writeData = (blkCntCurrentTns (numSec - 0xFFFF * i) : ℕ)

/-- `omap_mmc_write_sect` comes to an end, takes no more from the counter of
sectors than there is, and writes each sector once and in order where the callees
do what they are asked for. -/
def WritesSectors (replies : ℕ → PassReply) (mode : Mode)
    (numBytes startSec : ℕ) : Prop :=
  ∃ ret calls, Returns (writeSectCalls replies mode numBytes startSec)
      (ret, calls) ∧
    (∀ c ∈ calls, c.ret ≤ c.numSec) ∧
    (Prompt replies (numSecVal numBytes) →
      (∀ c ∈ calls, c.blocks ≤ 0xFFFF) ∧
      calls.flatMap (BurstCall.sectors mode) =
        (List.range (sectorCount numBytes)).map (fun k => startSec + k) ∧
      calls.flatMap BurstCall.sources =
        (List.range (sectorCount numBytes)).map fun k => mmcsdSectorSize * k)

/-! ## The end of the loop -/

/-- The blocks reported in the first `k` passes. -/
def reported (replies : ℕ → PassReply) (k : ℕ) : ℤ :=
  ∑ i ∈ Finset.range k, (replies i).writeData

/-- The pass with `left` sectors in front of it ends the loop early. -/
def PassReply.Stops (reply : PassReply) (left : ℕ) : Prop :=
  reply.open (blkCntCurrentTns left) ≠ 1 ∨ reply.writeData < 0

/-- After `k` passes that each leave sectors to write, the blocks reported are
exactly the sectors asked for, or the next pass ends the loop. -/
def SettlesIn (replies : ℕ → PassReply) (numSec k : ℕ) : Prop :=
  (∀ i < k, reported replies i < numSec ∧
      ¬(replies i).Stops (numSec - reported replies i).toNat) ∧
    (reported replies k = numSec ∨
      reported replies k < numSec ∧
        (replies k).Stops (numSec - reported replies k).toNat)

/-- The passes come to an end without more blocks reported than are left. -/
def Settles (replies : ℕ → PassReply) (numSec : ℕ) : Prop :=
  ∃ k, SettlesIn replies numSec k

theorem reported_zero (replies : ℕ → PassReply) : reported replies 0 = 0 := by
  rw [reported, Finset.range_zero, Finset.sum_empty]

theorem reported_succ (replies : ℕ → PassReply) (k : ℕ) :
    reported replies (k + 1) =
      (replies 0).writeData + reported (fun i => replies (i + 1)) k := by
  rw [reported, Finset.sum_range_succ', add_comm]
  rfl

theorem settles_zero (replies : ℕ → PassReply) : Settles replies 0 := by
  refine ⟨0, fun i hi => absurd hi (Nat.not_lt_zero i), Or.inl ?_⟩
  rw [reported_zero, Nat.cast_zero]

theorem settles_of_stops {replies : ℕ → PassReply} {numSec : ℕ}
    (hne : numSec ≠ 0) (h : (replies 0).Stops numSec) :
    Settles replies numSec := by
  refine ⟨0, fun i hi => absurd hi (Nat.not_lt_zero i), Or.inr ?_⟩
  rw [reported_zero]
  refine ⟨by omega, ?_⟩
  rwa [sub_zero, Int.toNat_natCast]

theorem not_settlesIn_zero {replies : ℕ → PassReply} {numSec : ℕ}
    (hne : numSec ≠ 0) (hgo : ¬(replies 0).Stops numSec) :
    ¬SettlesIn replies numSec 0 := by
  rintro ⟨-, hend⟩
  rw [reported_zero, sub_zero, Int.toNat_natCast] at hend
  rcases hend with hend | ⟨-, hstop⟩
  · omega
  · exact hgo hstop

/-- A pass that does not end the loop. -/
theorem settlesIn_succ {replies : ℕ → PassReply} {numSec count k : ℕ}
    (hne : numSec ≠ 0) (hgo : ¬(replies 0).Stops numSec)
    (hcount : (replies 0).writeData = count) :
    SettlesIn replies numSec (k + 1) ↔ count ≤ numSec ∧
      SettlesIn (fun i => replies (i + 1)) (numSec - count) k := by
  have hshift : ∀ k, reported replies (k + 1) =
      count + reported (fun i => replies (i + 1)) k := fun k => by
    rw [reported_succ, hcount]
  have hleft : ∀ k, count ≤ numSec →
      (((numSec - count : ℕ) : ℤ) - reported (fun i => replies (i + 1)) k) =
        numSec - reported replies (k + 1) := fun k hle => by
    rw [hshift k, Nat.cast_sub hle]
    omega
  constructor
  · rintro ⟨hbefore, hend⟩
    have hle : count ≤ numSec := by
      cases k with
      | zero =>
          rw [hshift 0, reported_zero] at hend
          omega
      | succ k =>
          have hone := (hbefore 1 (by omega)).1
          rw [hshift 0, reported_zero] at hone
          omega
    refine ⟨hle, fun i hi => ?_, ?_⟩
    · obtain ⟨hlt, hnot⟩ := hbefore (i + 1) (by omega)
      have hsame := hleft i hle
      rw [hsame]
      exact ⟨by omega, hnot⟩
    · have hsame := hleft k hle
      rw [hsame]
      rcases hend with hend | ⟨hlt, hstop⟩
      · left
        omega
      · exact Or.inr ⟨by omega, hstop⟩
  · rintro ⟨hle, hbefore, hend⟩
    refine ⟨fun i hi => ?_, ?_⟩
    · cases i with
      | zero =>
          rw [reported_zero, sub_zero, Int.toNat_natCast]
          exact ⟨by omega, hgo⟩
      | succ i =>
          obtain ⟨hlt, hnot⟩ := hbefore i (by omega)
          have hsame := hleft i hle
          rw [hsame] at hnot
          exact ⟨by omega, hnot⟩
    · have hsame := hleft k hle
      rw [hsame] at hend
      rcases hend with hend | ⟨hlt, hstop⟩
      · left
        omega
      · exact Or.inr ⟨by omega, hstop⟩

theorem settles_of_next {replies : ℕ → PassReply} {numSec count : ℕ}
    (hne : numSec ≠ 0) (hgo : ¬(replies 0).Stops numSec)
    (hcount : (replies 0).writeData = count) (hle : count ≤ numSec)
    (h : Settles (fun i => replies (i + 1)) (numSec - count)) :
    Settles replies numSec := by
  obtain ⟨k, hk⟩ := h
  exact ⟨k + 1, (settlesIn_succ hne hgo hcount).mpr ⟨hle, hk⟩⟩

section Loop

variable {secInc : ℕ}

/-- The call of a pass. -/
def WriteState.call (s : WriteState) : BurstCall :=
  ⟨s.argument, s.numSec, blkCntCurrentTns s.numSec, s.buf,
    (s.replies 0).writeData⟩

/-- The state behind a pass that has moved `count` blocks. -/
def WriteState.next (secInc : ℕ) (s : WriteState) (count : ℕ) : WriteState where
  replies := fun i => s.replies (i + 1)
  argument := (s.argument + secInc * count) % 2 ^ 32
  numSec := numSecLeft s.numSec count
  buf := s.buf + mmcsdSectorSize * count
  calls := s.calls ++ [s.call]

theorem writeSectRound_zero {s : WriteState} (hzero : s.numSec = 0) :
    writeSectRound secInc s = .inl (1, s.calls) := if_pos hzero

/-- A pass that ends the loop has made no call, or one that reports an error. -/
theorem writeSectRound_of_stops {s : WriteState} (hne : s.numSec ≠ 0)
    (hstop : (s.replies 0).Stops s.numSec) :
    ∃ ret more, writeSectRound secInc s = .inl (ret, s.calls ++ more) ∧
      ∀ c ∈ more, c.ret < 0 := by
  rw [writeSectRound, if_neg hne]
  by_cases hopen : (s.replies 0).open (blkCntCurrentTns s.numSec) ≠ 1
  · refine ⟨(s.replies 0).open (blkCntCurrentTns s.numSec), [], ?_,
      fun c hc => absurd hc List.not_mem_nil⟩
    simp only [if_pos hopen, List.append_nil]
  · have hneg : (s.replies 0).writeData < 0 := hstop.resolve_left hopen
    refine ⟨1, [s.call], ?_, fun c hc => ?_⟩
    · simp only [if_neg hopen, if_pos hneg]
      rfl
    · rw [List.mem_singleton.mp hc]
      exact hneg

theorem writeSectRound_of_go {s : WriteState} {count : ℕ} (hne : s.numSec ≠ 0)
    (hgo : ¬(s.replies 0).Stops s.numSec)
    (hcount : (s.replies 0).writeData = count) :
    writeSectRound secInc s = .inr (s.next secInc count) := by
  have hopen : ¬(s.replies 0).open (blkCntCurrentTns s.numSec) ≠ 1 :=
    fun h => hgo (Or.inl h)
  have hnonneg : ¬(s.replies 0).writeData < 0 := fun h => hgo (Or.inr h)
  have hnat : (s.replies 0).writeData.toNat = count := by
    rw [hcount, Int.toNat_natCast]
  rw [writeSectRound, if_neg hne]
  simp only [if_neg hopen, if_neg hnonneg, hnat]
  rfl

/-- A pass that goes on reports a number of blocks. -/
theorem exists_count {reply : PassReply} {left : ℕ} (hgo : ¬reply.Stops left) :
    ∃ count : ℕ, reply.writeData = count :=
  Int.eq_ofNat_of_zero_le (not_lt.mp fun h => hgo (Or.inr h))

/-- A run that has taken no more from the counter than there is. -/
theorem settles_of_loop {fuel ret : ℕ} {s : WriteState} {calls : List BurstCall}
    (hlt : s.numSec < 2 ^ 32)
    (h : writeSectLoop secInc s fuel = some (ret, calls)) :
    ∃ more, calls = s.calls ++ more ∧
      ((∀ c ∈ more, c.ret ≤ c.numSec) → Settles s.replies s.numSec) := by
  induction fuel generalizing s with
  | zero => cases h
  | succ fuel ih =>
      simp only [writeSectLoop, fuelLoop, Option.bind_some] at h
      by_cases hzero : s.numSec = 0
      · rw [writeSectRound_zero hzero] at h
        cases h
        refine ⟨[], (List.append_nil _).symm, fun _ => ?_⟩
        rw [hzero]
        exact settles_zero s.replies
      · by_cases hstop : (s.replies 0).Stops s.numSec
        · obtain ⟨ret', more, hround, -⟩ :=
            @writeSectRound_of_stops secInc s hzero hstop
          rw [hround] at h
          cases h
          exact ⟨more, rfl, fun _ => settles_of_stops hzero hstop⟩
        · obtain ⟨count, hcount⟩ := exists_count hstop
          rw [writeSectRound_of_go hzero hstop hcount] at h
          obtain ⟨more, rfl, hmore⟩ :=
            ih (numSecLeft_lt s.numSec count : (s.next secInc count).numSec < _) h
          refine ⟨s.call :: more, by simp [WriteState.next], fun hall => ?_⟩
          have hle : count ≤ s.numSec := by
            have hcall : (s.replies 0).writeData ≤ s.numSec :=
              hall s.call List.mem_cons_self
            rw [hcount] at hcall
            exact_mod_cast hcall
          refine settles_of_next hzero hstop hcount hle ?_
          rw [← numSecLeft_eq hlt hle]
          exact hmore fun c hc => hall c (List.mem_cons_of_mem _ hc)

/-- Where the passes settle, the loop comes to an end. -/
theorem loop_of_settlesIn {k : ℕ} {s : WriteState} (hlt : s.numSec < 2 ^ 32)
    (h : SettlesIn s.replies s.numSec k) :
    ∃ ret more, Returns (writeSectLoop secInc s) (ret, s.calls ++ more) ∧
      ∀ c ∈ more, c.ret ≤ c.numSec := by
  induction k generalizing s with
  | zero =>
      by_cases hzero : s.numSec = 0
      · refine ⟨1, [], returns_fuelLoop.mpr ?_, fun c hc =>
          absurd hc List.not_mem_nil⟩
        rw [writeSectRound_zero hzero, List.append_nil]
        rfl
      · have hstop : (s.replies 0).Stops s.numSec := by
          by_contra hgo
          exact not_settlesIn_zero hzero hgo h
        obtain ⟨ret, more, hround, hmore⟩ :=
          @writeSectRound_of_stops secInc s hzero hstop
        refine ⟨ret, more, returns_fuelLoop.mpr ?_, fun c hc => ?_⟩
        · rw [hround]
          rfl
        · exact (hmore c hc).le.trans (Int.natCast_nonneg _)
  | succ k ih =>
      obtain ⟨hpos, hgo⟩ := h.1 0 (Nat.succ_pos k)
      rw [reported_zero] at hpos
      rw [reported_zero, sub_zero, Int.toNat_natCast] at hgo
      have hzero : s.numSec ≠ 0 := by omega
      obtain ⟨count, hcount⟩ := exists_count hgo
      obtain ⟨hle, hrest⟩ := (settlesIn_succ hzero hgo hcount).mp h
      rw [← numSecLeft_eq hlt hle] at hrest
      obtain ⟨ret, more, hreturns, hmore⟩ := @ih (s.next secInc count)
        (numSecLeft_lt s.numSec count) hrest
      refine ⟨ret, s.call :: more, returns_fuelLoop.mpr ?_, fun c hc => ?_⟩
      · rw [writeSectRound_of_go hzero hgo hcount]
        have hcalls : (s.next secInc count).calls ++ more =
            s.calls ++ s.call :: more := by simp [WriteState.next]
        rw [← hcalls]
        exact hreturns
      · rcases List.mem_cons.mp hc with rfl | hc
        · have hcall : (s.replies 0).writeData ≤ s.numSec := by
            rw [hcount]
            exact_mod_cast hle
          exact hcall
        · exact hmore c hc

end Loop

/-! ## Callees that do what they are asked for -/

theorem Prompt.first {replies : ℕ → PassReply} {numSec : ℕ}
    (h : Prompt replies numSec) (hne : numSec ≠ 0) :
    ¬(replies 0).Stops numSec ∧
      (replies 0).writeData = (blkCntCurrentTns numSec : ℕ) := by
  obtain ⟨hsend, hdata⟩ := h 0 (by omega)
  rw [Nat.mul_zero, Nat.sub_zero] at hdata
  refine ⟨?_, hdata⟩
  rintro (hopen | hneg)
  · apply hopen
    unfold PassReply.open
    split
    · rw [if_neg (not_not.mpr (hsend .cmd23)), hsend]
    · rw [hsend]
  · omega

theorem Prompt.next {replies : ℕ → PassReply} {numSec : ℕ}
    (h : Prompt replies numSec) :
    Prompt (fun i => replies (i + 1)) (numSec - blkCntCurrentTns numSec) := by
  intro i hi
  have hlarge : 0xFFFF * (i + 1) < numSec := by
    unfold blkCntCurrentTns at hi
    split at hi <;> omega
  obtain ⟨hsend, hdata⟩ := h (i + 1) hlarge
  refine ⟨hsend, ?_⟩
  have hblk : blkCntCurrentTns numSec = 0xFFFF := by
    unfold blkCntCurrentTns
    rw [if_pos (by omega)]
  rw [hdata, hblk, Nat.sub_sub]
  congr 3
  omega

/-- The calls for a request that the callees answer promptly. -/
theorem loop_of_prompt {mode : Mode} {start : ℕ} {s : WriteState}
    (hlt : s.numSec < 2 ^ 32) (h : Prompt s.replies s.numSec)
    (harg : s.argument = sectorArgument mode start) :
    ∃ more, Returns (writeSectLoop (secIncVal mode) s) (1, s.calls ++ more) ∧
      (∀ c ∈ more, c.blocks ≤ 0xFFFF) ∧
      more.flatMap (BurstCall.sectors mode) =
        burstSectors mode start s.numSec ∧
      more.flatMap BurstCall.sources =
        (List.range s.numSec).map fun k => s.buf + mmcsdSectorSize * k := by
  induction hn : s.numSec using Nat.strongRecOn generalizing s start with
  | ind n ih =>
      by_cases hzero : s.numSec = 0
      · rw [← hn, hzero, burstSectors_zero]
        refine ⟨[], returns_fuelLoop.mpr ?_, ?_, rfl, rfl⟩
        · rw [writeSectRound_zero hzero, List.append_nil]
          rfl
        · exact fun c hc => absurd hc List.not_mem_nil
      · obtain ⟨hgo, hcount⟩ := h.first hzero
        have hpos := blkCntCurrentTns_pos hzero
        have hle := (blkCntCurrentTns_le s.numSec).1
        have hleft := numSecLeft_eq hlt hle
        set count := blkCntCurrentTns s.numSec with hcountEq
        have hnext : (s.next (secIncVal mode) count).argument =
            sectorArgument mode (start + count) := by
          rw [← sectorArgument_add, ← harg]
          rfl
        have hprompt : Prompt (s.next (secIncVal mode) count).replies
            (s.next (secIncVal mode) count).numSec := by
          change Prompt _ (numSecLeft s.numSec count)
          rw [hleft]
          exact h.next
        obtain ⟨more, hreturns, hblocks, hsectors, hsources⟩ :=
          ih (numSecLeft s.numSec count) (by rw [hleft]; omega)
            (numSecLeft_lt s.numSec count) hprompt hnext rfl
        rw [hleft] at hsectors hsources
        refine ⟨s.call :: more, returns_fuelLoop.mpr ?_, ?_, ?_, ?_⟩
        · rw [writeSectRound_of_go hzero hgo hcount]
          have hcalls : (s.next (secIncVal mode) count).calls ++ more =
              s.calls ++ s.call :: more := by simp [WriteState.next]
          rw [← hcalls]
          exact hreturns
        · intro c hc
          rcases List.mem_cons.mp hc with rfl | hc
          · exact (blkCntCurrentTns_le s.numSec).2
          · exact hblocks c hc
        · rw [List.flatMap_cons, hsectors, ← hn, burstSectors_of_ne hzero,
            BurstCall.sectors]
          simp only [WriteState.call, harg, ← hcountEq]
        · rw [List.flatMap_cons, hsources, ← hn, BurstCall.sources]
          have hsplit : s.numSec = count + (s.numSec - count) := by omega
          conv_rhs => rw [hsplit, List.range_add, List.map_append, List.map_map]
          simp only [WriteState.call, WriteState.next, Function.comp_def,
            Nat.mul_add, Nat.add_assoc, ← hcountEq]

theorem returns_writeSectCalls {replies : ℕ → PassReply} {mode : Mode}
    {numBytes startSec : ℕ} {out : ℕ × List BurstCall} :
    Returns (writeSectCalls replies mode numBytes startSec) out ↔
      Returns (writeSectLoop (secIncVal mode)
        ⟨replies, sectorArgument mode startSec, numSecVal numBytes, 0, []⟩)
        out := by
  by_cases hzero : numSecVal numBytes = 0
  · have hloop : ∀ out, Returns (writeSectLoop (secIncVal mode)
        ⟨replies, sectorArgument mode startSec, numSecVal numBytes, 0, []⟩) out ↔
          (1, []) = out := fun out => by
      refine returns_fuelLoop.trans ?_
      rw [writeSectRound_zero hzero]
      rfl
    rw [hloop]
    simp only [Returns, writeSectCalls, if_pos hzero, Option.some.injEq,
      exists_const]
  · simp only [Returns, writeSectCalls, if_neg hzero]

/-- The loop writes the sectors as it should exactly if the passes settle and,
for prompt callees, the size does not wrap and each burst starts at a sector that
its argument can address. -/
theorem writesSectors_iff (replies : ℕ → PassReply) (mode : Mode)
    (numBytes startSec : ℕ) :
    WritesSectors replies mode numBytes startSec ↔
      Settles replies (numSecVal numBytes) ∧
        (Prompt replies (numSecVal numBytes) →
          numBytes + (mmcsdSectorSize - 1) < 2 ^ 32 ∧
            (numBytes = 0 ∨
              lastBurst startSec (sectorCount numBytes) < sectorLimit mode)) := by
  set s₀ : WriteState :=
    ⟨replies, sectorArgument mode startSec, numSecVal numBytes, 0, []⟩ with hs₀
  have hlt : s₀.numSec < 2 ^ 32 :=
    (numSecVal_lt numBytes).trans (by decide)
  have hstable : Stable (writeSectLoop (secIncVal mode) s₀) :=
    fuelLoop_stable (fun _ => stable_const _) s₀
  have hsectors : burstSectors mode startSec (numSecVal numBytes) =
        (List.range (sectorCount numBytes)).map (fun k => startSec + k) ↔
      numBytes + (mmcsdSectorSize - 1) < 2 ^ 32 ∧ (numBytes = 0 ∨
        lastBurst startSec (sectorCount numBytes) < sectorLimit mode) := by
    rw [← numSecVal_eq_iff, ← sectorCount_eq_zero numBytes]
    constructor
    · intro h
      have hlen := congrArg List.length h
      rw [burstSectors_length, List.length_map, List.length_range] at hlen
      rw [hlen] at h
      exact ⟨hlen, (burstSectors_eq_iff ..).mp h⟩
    · rintro ⟨hcount, h⟩
      rw [hcount]
      exact (burstSectors_eq_iff ..).mpr h
  constructor
  · rintro ⟨ret, calls, hreturns, hcounter, hprompt⟩
    rw [returns_writeSectCalls] at hreturns
    obtain ⟨fuel, hloop⟩ := hreturns
    obtain ⟨more, rfl, hsettles⟩ := settles_of_loop hlt hloop
    refine ⟨hsettles hcounter, fun hp => hsectors.mp ?_⟩
    obtain ⟨more', hreturns', -, hsectors', -⟩ :=
      @loop_of_prompt mode startSec s₀ hlt hp rfl
    cases Returns.unique hstable ⟨fuel, hloop⟩ hreturns'
    rw [← (hprompt hp).2.1]
    exact hsectors'.symm
  · rintro ⟨⟨k, hk⟩, hcond⟩
    obtain ⟨ret, more, hreturns, hcounter⟩ :=
      @loop_of_settlesIn (secIncVal mode) k s₀ hlt hk
    refine ⟨ret, more, returns_writeSectCalls.mpr hreturns, hcounter,
      fun hp => ?_⟩
    obtain ⟨more', hreturns', hblocks, hsectors', hsources⟩ :=
      @loop_of_prompt mode startSec s₀ hlt hp rfl
    cases Returns.unique hstable hreturns hreturns'
    have hcount := (numSecVal_eq_iff numBytes).mpr (hcond hp).1
    refine ⟨hblocks, hsectors'.trans (hsectors.mpr (hcond hp)), ?_⟩
    rw [hsources, ← hcount]
    simp only [hs₀, Nat.zero_add]

/-- A controller that reports a transfer as complete before it has asked for a
block: `mmc_write_data` returns 0 each time. -/
theorem not_writesSectors :
    ¬ ∀ replies mode numBytes startSec,
      WritesSectors replies mode numBytes startSec := by
  intro h
  obtain ⟨ret, calls, hreturns, -⟩ :=
    h (fun _ => ⟨fun _ => 1, 0⟩) .sectorMode 512 0
  rw [returns_writeSectCalls] at hreturns
  obtain ⟨fuel, hloop⟩ := hreturns
  -- One sector is left in front of each pass.
  have hround : ∀ s : WriteState,
      s.replies = (fun _ => ⟨fun _ => 1, 0⟩) ∧ s.numSec = 1 →
        writeSectRound (secIncVal .sectorMode) s =
          .inr (s.next (secIncVal .sectorMode) 0) := by
    rintro s ⟨hreplies, hone⟩
    refine writeSectRound_of_go (by rw [hone]; decide) ?_ (by rw [hreplies]; rfl)
    rw [hreplies, hone]
    rintro (hopen | hneg)
    · exact absurd hopen (by decide)
    · exact absurd hneg (by decide)
  refine @fuelLoop_inv _ _ _
    (fun s => s.replies = (fun _ => ⟨fun _ => 1, 0⟩) ∧ s.numSec = 1)
    (fun _ => False) ?_ ?_ fuel _ (ret, calls) ⟨rfl, by decide⟩ hloop
  · intro s fuel out hs hend
    rw [hround s hs] at hend
    cases hend
  · intro s fuel s' hs hgo
    rw [hround s hs] at hgo
    cases hgo
    refine ⟨?_, ?_⟩
    · simp only [WriteState.next, hs.1]
    · simp only [WriteState.next, hs.2]
      decide

end TateFirmware.Mmc
