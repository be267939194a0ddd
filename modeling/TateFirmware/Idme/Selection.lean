import TateFirmware.Idme.UpdateRecord
import TateFirmware.Idme.UpdateVar
import TateFirmware.Support.Run

/-!
# The selected partition

The partition that the eMMC gives access to is shared by everything that uses the
device.  The operations on the boot area switch to the boot partition, send their
commands and switch back; those on the user area send their commands to whatever
partition is selected.  This module is about runs of operations: what they leave
selected, and which partition they write, as long as no switch is refused with the
value `1` of a success.
-/

namespace TateFirmware.Idme

open LibGeneric Support

/-! ## Operations -/

/-- `gblock_buff` with the magic number in a cleared block. -/
def magicBlock (st : IdmeState) : IdmeState :=
  let st := ({ st with
    gblockBuff := st.gblockBuff.fill 0 mmcBlockSize 0 }).touch 0 mmcBlockSize
  ({ st with gblockBuff := st.gblockBuff.copyIn 0 idmeMagicNumber }).touch 0
    idmeMagicNumber.length

/-- `idme_write_magic_size`; whether it returns `0`. -/
def idmeWriteMagicSize (st : IdmeState) : Bool × IdmeState :=
  match swPart .boot (magicBlock st) with
  | (false, st) => (false, st)
  | (true, st) =>
      match writeBlock 0 st with
      | (ok, st) =>
          match swPart .user st with
          | (back, st) => (back && ok, st)

inductive IdmeOp where
  | read (part : Partition) (pbuf : Memory UInt8)
  | write (part : Partition) (pbuf : Memory UInt8)
  | getVar (name : List UInt8) (buflen : ℕ)
  | updateVar (name : List UInt8) (value : Option (List UInt8))
  | writeMagicSize

/-- Whether an operation succeeds, and the state behind it. -/
def IdmeOp.exec (op : IdmeOp) (st : IdmeState) : Bool × IdmeState :=
  match op with
  | .read part pbuf =>
      let (buf, dev) := idmeRead part pbuf st.dev
      (buf.isSome, { st with dev := dev })
  | .write part pbuf =>
      let (ok, dev) := idmeWrite pbuf part st.dev
      (ok, { st with dev := dev })
  | .getVar name buflen =>
      let (get, st) := idmeGetVar name buflen st
      (get.ret = 0, st)
  | .updateVar name value => idmeUpdateVar name value st
  | .writeMagicSize => idmeWriteMagicSize st

/-- One operation after the other. -/
def idmeStep (st : IdmeState) (op : IdmeOp) : IdmeState × List Bool :=
  ((op.exec st).2, [(op.exec st).1])

/-- What an operation does between its two switch commands; `none` for one that
sends no switch command. -/
def IdmeOp.body : IdmeOp → Option (IdmeState → IdmeState)
  | .read .user _ => none
  | .read .boot pbuf => some fun st =>
      { st with dev :=
        (readBlocks (configIdmeSize / mmcBlockSize) 0 (areaBlock .boot) pbuf st.dev).2 }
  | .write .user _ => none
  | .write .boot pbuf => some fun st =>
      { st with dev :=
        (writeBlocks pbuf (configIdmeSize / mmcBlockSize) 0 (areaBlock .boot) st.dev).2 }
  | .getVar name _ => (idmeFindVar name).map fun nv st => (readBlock nv.block st).2
  | .updateVar name value => (idmeFindVar name).map fun nv st =>
      match readBlock nv.block st with
      | (status, st) =>
          if status ≠ 1 then st
          else (writeBlock nv.block (putValue nv.inBlock nv.size value st)).2
  | .writeMagicSize => some fun st => (writeBlock 0 (magicBlock st)).2

/-- The reports of the switch commands that an operation sends. -/
def IdmeOp.switches (op : IdmeOp) (st : IdmeState) : List Report :=
  match op.body with
  | none => []
  | some body =>
      match swPart .boot st with
      | (false, _) => [st.report 0]
      | (true, st₁) => [st.report 0, (body st₁).report 0]

def IdmeOp.OnBootArea : IdmeOp → Prop
  | .read part _ => part = .boot
  | .write part _ => part = .boot
  | .getVar _ _ => True
  | .updateVar _ _ => True
  | .writeMagicSize => True

/-- After an operation that succeeds, and after one that fails while its switch
commands succeed, the user partition is selected. -/
def SelectsUser (st : IdmeState) (op : IdmeOp) : Prop :=
  (op.exec st).1 = true ∨ (∀ r ∈ op.switches st, r.accepted = true) →
    (op.exec st).2.dev.access = .user

/-- An operation on the boot area writes no block of the user partition. -/
def WritesBootOnly (st : IdmeState) (op : IdmeOp) : Prop :=
  op.OnBootArea → ∃ ws, st.dev.Wrote (op.exec st).2.dev ws ∧
    ∀ w ∈ ws, w.part = .boot

/-- As `SelectsUser`, but an operation that sends no switch command leaves the
selection as it was. -/
def SelectsUserAgain (st : IdmeState) (op : IdmeOp) : Prop :=
  (op.exec st).1 = true ∨ (∀ r ∈ op.switches st, r.accepted = true) →
    (op.exec st).2.dev.access = if op.switches st = [] then st.dev.access else .user

/-- The switch back to the user partition fails. -/
def LeavesBoot (st : IdmeState) (op : IdmeOp) : Prop :=
  (op.switches st).map Report.accepted = [true, false]

/-- No switch command of an operation is refused with the value `1`. -/
def ToldSwitches (st : IdmeState) (op : IdmeOp) : Prop :=
  ∀ r ∈ op.switches st, r.refusal ≠ some 1

instance (st : IdmeState) (op : IdmeOp) : Decidable (ToldSwitches st op) :=
  inferInstanceAs (Decidable (∀ r ∈ op.switches st, r.refusal ≠ some 1))

/-! ## What an operation does to the selection -/

/-- Commands other than switches: the selection stays, and only the selected partition is
written. -/
def Emmc.Stays (dev dev' : Emmc) : Prop :=
  dev'.access = dev.access ∧ ∃ ws, dev.Wrote dev' ws ∧ ∀ w ∈ ws, w.part = dev.access

theorem Emmc.Stays.refl (dev : Emmc) : dev.Stays dev :=
  ⟨rfl, [], ⟨rfl, (List.append_nil _).symm⟩, by simp⟩

theorem Emmc.Stays.trans {dev dev' dev'' : Emmc} (h : dev.Stays dev')
    (h' : dev'.Stays dev'') : dev.Stays dev'' := by
  obtain ⟨haccess, ws, hwrote, hpart⟩ := h
  obtain ⟨haccess', ws', hwrote', hpart'⟩ := h'
  refine ⟨haccess'.trans haccess, ws ++ ws', hwrote.trans hwrote', ?_⟩
  intro w hw
  rcases List.mem_append.mp hw with hw | hw
  · exact hpart w hw
  · exact (hpart' w hw).trans haccess

theorem Emmc.SameStore.stays {dev dev' : Emmc} (h : dev.SameStore dev')
    (haccess : dev'.access = dev.access) : dev.Stays dev' :=
  ⟨haccess, [], h.wrote, by simp⟩

theorem readBlock_stays (block : ℕ) (st : IdmeState) :
    st.dev.Stays (readBlock block st).2.dev := by
  rw [readBlock_dev]
  exact (next_sameStore st.dev).stays rfl

theorem mmcWrite_stays (block : ℕ) (data : List UInt8) (dev : Emmc) :
    dev.Stays (mmcWrite block data dev).2 := by
  unfold mmcWrite
  dsimp only
  split
  · exact ⟨rfl, [_], ⟨rfl, rfl⟩, fun w hw => by rw [List.mem_singleton.mp hw]⟩
  · exact (next_sameStore dev).stays rfl

theorem writeBlock_stays (block : ℕ) (st : IdmeState) :
    st.dev.Stays (writeBlock block st).2.dev :=
  mmcWrite_stays block (st.gblockBuff.read 0 mmcBlockSize) st.dev

theorem readBlocks_stays (n len block : ℕ) (pbuf : Memory UInt8) (dev : Emmc) :
    dev.Stays (readBlocks n len block pbuf dev).2 :=
  (readBlocks_sameStore n len block pbuf dev).stays
    (readBlocks_access n len block pbuf dev)

theorem writeBlocks_stays (pbuf : Memory UInt8) (n len block : ℕ) (dev : Emmc) :
    dev.Stays (writeBlocks pbuf n len block dev).2 := by
  induction n generalizing len block dev with
  | zero => exact Emmc.Stays.refl dev
  | succ n ih =>
      have hwrite := mmcWrite_stays block (pbuf.read len mmcBlockSize) dev
      rw [writeBlocks]
      split
      · rename_i heq
        rwa [heq] at hwrite
      · rename_i heq
        rw [heq] at hwrite
        exact hwrite.trans (ih _ _ _)

/-- Between the switches the selection stays. -/
theorem body_stays {op : IdmeOp} {body : IdmeState → IdmeState}
    (h : op.body = some body) (st : IdmeState) : st.dev.Stays (body st).dev := by
  cases op with
  | read part pbuf =>
      cases part with
      | user => cases h
      | boot =>
          cases h
          exact readBlocks_stays _ _ _ _ _
  | write part pbuf =>
      cases part with
      | user => cases h
      | boot =>
          cases h
          exact writeBlocks_stays _ _ _ _ _
  | getVar name buflen =>
      obtain ⟨nv, -, rfl⟩ := Option.map_eq_some_iff.mp h
      exact readBlock_stays nv.block st
  | updateVar name value =>
      obtain ⟨nv, -, rfl⟩ := Option.map_eq_some_iff.mp h
      have hread := readBlock_stays nv.block st
      dsimp only
      split
      · exact hread
      · have hwrite := writeBlock_stays nv.block
          (putValue nv.inBlock nv.size value (readBlock nv.block st).2)
        rw [putValue_dev] at hwrite
        exact hread.trans hwrite
  | writeMagicSize =>
      cases h
      exact writeBlock_stays 0 (magicBlock st)

/-- How an operation with switch commands goes: it fails at the first one, or it gets
to the second one, and then succeeds only if that does. -/
theorem exec_of_body {op : IdmeOp} {body : IdmeState → IdmeState}
    (h : op.body = some body) (st : IdmeState) :
    (∃ st₁, swPart .boot st = (false, st₁) ∧ (op.exec st).1 = false ∧
      (op.exec st).2.dev = st₁.dev) ∨
    ∃ st₁, swPart .boot st = (true, st₁) ∧
      (op.exec st).2.dev = (swPart .user (body st₁)).2.dev ∧
      ((op.exec st).1 = true → (swPart .user (body st₁)).1 = true) := by
  cases hto : mmcSwPart .boot st.dev with
  | mk ok dev₁ =>
  have hsw : swPart .boot st = (ok, { st with dev := dev₁ }) := by
    rw [swPart, hto]
  rw [hsw]
  cases op with
  | read part pbuf =>
      cases part with
      | user => cases h
      | boot =>
          cases h
          simp only [IdmeOp.exec, idmeRead, hto]
          cases ok with
          | false => exact Or.inl ⟨_, rfl, rfl, rfl⟩
          | true =>
              refine Or.inr ⟨_, rfl, ?_⟩
              simp only [swPart]
              split <;> rename_i heq <;> rw [heq] <;> simp
  | write part pbuf =>
      cases part with
      | user => cases h
      | boot =>
          cases h
          simp only [IdmeOp.exec, idmeWrite, hto]
          cases ok with
          | false => exact Or.inl ⟨_, rfl, rfl, rfl⟩
          | true =>
              refine Or.inr ⟨_, rfl, ?_⟩
              simp only [swPart]
              split <;> rename_i heq <;> rw [heq] <;> simp
  | getVar name buflen =>
      obtain ⟨nv, hnv, rfl⟩ := Option.map_eq_some_iff.mp h
      have hblock : (nv.offset + idmeBaseAddr) / mmcBlockSize = nv.block := rfl
      simp only [IdmeOp.exec, idmeGetVar, hnv, hsw, hblock]
      cases ok with
      | false => exact Or.inl ⟨_, rfl, rfl, rfl⟩
      | true =>
          refine Or.inr ⟨_, rfl, ?_⟩
          cases hback : swPart .user (readBlock nv.block { st with dev := dev₁ }).2 with
          | mk back st₂ =>
              cases back with
              | false => simp [hback, GetVar.ret]
              | true =>
                  simp only [hback]
                  split_ifs <;> simp [IdmeState.touch]
  | updateVar name value =>
      obtain ⟨nv, hnv, rfl⟩ := Option.map_eq_some_iff.mp h
      have hblock : (nv.offset + idmeBaseAddr) / mmcBlockSize = nv.block := rfl
      have hoffset : (nv.offset + idmeBaseAddr) % mmcBlockSize = nv.inBlock := rfl
      simp only [IdmeOp.exec, idmeUpdateVar, hnv, hsw, hblock, hoffset]
      cases ok with
      | false => exact Or.inl ⟨_, rfl, rfl, rfl⟩
      | true =>
          refine Or.inr ⟨_, rfl, ?_⟩
          dsimp only
          split_ifs
          · exact ⟨rfl, fun hok => absurd hok (by simp)⟩
          · exact ⟨rfl, fun hok => (Bool.and_eq_true_iff.mp hok).1⟩
  | writeMagicSize =>
      cases h
      have hmagic : swPart .boot (magicBlock st) =
          (ok, magicBlock { st with dev := dev₁ }) := by
        have hdev : (magicBlock st).dev = st.dev := rfl
        rw [swPart, hdev, hto]
        rfl
      simp only [IdmeOp.exec, idmeWriteMagicSize, hmagic]
      cases ok with
      | false => exact Or.inl ⟨_, rfl, rfl, rfl⟩
      | true =>
          refine Or.inr ⟨_, rfl, rfl, ?_⟩
          intro hok
          exact (Bool.and_eq_true_iff.mp hok).1

theorem exec_access_of_no_body {op : IdmeOp} (h : op.body = none) (st : IdmeState) :
    (op.exec st).2.dev.access = st.dev.access := by
  cases op with
  | read part pbuf =>
      cases part with
      | user =>
          exact readBlocks_access (configIdmeSize / mmcBlockSize) 0 (areaBlock .user)
            pbuf st.dev
      | boot => cases h
  | write part pbuf =>
      cases part with
      | user =>
          exact writeBlocks_access pbuf (configIdmeSize / mmcBlockSize) 0
            (areaBlock .user) st.dev
      | boot => cases h
  | getVar name buflen =>
      have hnv := Option.map_eq_none_iff.mp h
      simp only [IdmeOp.exec, idmeGetVar, hnv]
  | updateVar name value =>
      have hnv := Option.map_eq_none_iff.mp h
      simp only [IdmeOp.exec, idmeUpdateVar, hnv]
  | writeMagicSize => cases h

/-- The two reports of an operation that gets to its switch back. -/
theorem switches_of_true {op : IdmeOp} {body : IdmeState → IdmeState} {st st₁ : IdmeState}
    (hbody : op.body = some body) (hto : swPart .boot st = (true, st₁)) :
    op.switches st = [st.report 0, (body st₁).report 0] := by
  simp only [IdmeOp.switches, hbody, hto]

theorem switches_of_false {op : IdmeOp} {body : IdmeState → IdmeState} {st st₁ : IdmeState}
    (hbody : op.body = some body) (hto : swPart .boot st = (false, st₁)) :
    op.switches st = [st.report 0] := by
  simp only [IdmeOp.switches, hbody, hto]

/-- A switch that tells takes place exactly if it returns `1`. -/
theorem accepted_iff_of_told {r : Report} (h : r.refusal ≠ some 1) :
    r.accepted = true ↔ r.refusal = none := by
  unfold Report.accepted
  cases hrefusal : r.refusal with
  | none => simp
  | some stat =>
      rw [hrefusal] at h
      simpa using h

/-- What is selected behind an operation whose switches tell. -/
theorem exec_access {op : IdmeOp} {st : IdmeState} (htold : ToldSwitches st op) :
    (op.exec st).2.dev.access =
      if (op.switches st).map Report.accepted = [true, true] then .user
      else if (op.switches st).map Report.accepted = [true, false] then .boot
      else st.dev.access := by
  cases hbody : op.body with
  | none =>
      have hnone : op.switches st = [] := by rw [IdmeOp.switches, hbody]
      rw [hnone, if_neg (by simp), if_neg (by simp)]
      exact exec_access_of_no_body hbody st
  | some body =>
      rcases exec_of_body hbody st with ⟨st₁, hto, -, hdev⟩ | ⟨st₁, hto, hdev, -⟩
      · have haccepted : (st.report 0).accepted = false := congrArg Prod.fst hto
        obtain rfl : (swPart .boot st).2 = st₁ := congrArg Prod.snd hto
        rw [switches_of_false hbody hto, List.map_singleton, if_neg (by simp),
          if_neg (by simp), hdev, swPart_access,
          if_neg (Report.refusal_of_refused haccepted)]
      · have haccepted : (st.report 0).accepted = true := congrArg Prod.fst hto
        obtain rfl : (swPart .boot st).2 = st₁ := congrArg Prod.snd hto
        unfold ToldSwitches at htold
        rw [switches_of_true hbody hto] at htold ⊢
        have hfirst := (accepted_iff_of_told (htold _ List.mem_cons_self)).mp haccepted
        have hsecond := accepted_iff_of_told (htold _
          (List.mem_cons_of_mem _ (List.mem_singleton_self _)))
        have hboot : (body (swPart .boot st).2).dev.access = .boot := by
          rw [(body_stays hbody _).1, swPart_access, if_pos hfirst]
        rw [hdev, swPart_access, hboot, List.map_cons, List.map_singleton, haccepted]
        cases hback : ((body (swPart .boot st).2).report 0).accepted with
        | true => rw [if_pos (hsecond.mp hback), if_pos rfl]
        | false =>
            rw [if_neg (Report.refusal_of_refused hback), if_neg (by simp), if_pos rfl]

/-- An operation that succeeds has switched there and back, or sends no switch command. -/
theorem switches_of_success {op : IdmeOp} {st : IdmeState} (h : (op.exec st).1 = true) :
    op.switches st = [] ∨ (op.switches st).map Report.accepted = [true, true] := by
  cases hbody : op.body with
  | none => exact Or.inl (by rw [IdmeOp.switches, hbody])
  | some body =>
      rcases exec_of_body hbody st with ⟨st₁, -, hfails, -⟩ | ⟨st₁, hto, -, hback⟩
      · rw [hfails] at h
        cases h
      · right
        have haccepted : (st.report 0).accepted = true := congrArg Prod.fst hto
        have hsecond : ((body st₁).report 0).accepted = true := hback h
        rw [switches_of_true hbody hto, List.map_cons, List.map_singleton, haccepted,
          hsecond]

/-- The switch commands of an operation, when all of them succeed. -/
theorem switches_of_all {op : IdmeOp} {st : IdmeState}
    (h : ∀ r ∈ op.switches st, r.accepted = true) :
    op.switches st = [] ∨ (op.switches st).map Report.accepted = [true, true] := by
  cases hbody : op.body with
  | none => exact Or.inl (by rw [IdmeOp.switches, hbody])
  | some body =>
      cases hto : swPart .boot st with
      | mk ok st₁ =>
          cases ok with
          | false =>
              rw [switches_of_false hbody hto] at h
              have hfails : (st.report 0).accepted = false := congrArg Prod.fst hto
              rw [h _ (List.mem_singleton_self _)] at hfails
              cases hfails
          | true =>
              rw [switches_of_true hbody hto] at h ⊢
              right
              rw [List.map_cons, List.map_singleton, h _ List.mem_cons_self,
                h _ (List.mem_cons_of_mem _ (List.mem_singleton_self _))]

theorem selectsUserAgain {st : IdmeState} {op : IdmeOp} (htold : ToldSwitches st op) :
    SelectsUserAgain st op := by
  intro h
  have hswitches := h.elim switches_of_success switches_of_all
  rw [exec_access htold]
  rcases hswitches with hnone | hboth
  · rw [hnone, if_neg (by simp), if_neg (by simp), if_pos rfl]
  · have hne : op.switches st ≠ [] := by
      intro hnone
      rw [hnone] at hboth
      cases hboth
    rw [if_pos hboth, if_neg hne]

theorem swPart_wrote (part : Partition) (st : IdmeState) :
    st.dev.Wrote (swPart part st).2.dev [] :=
  (mmcSwPart_sameStore part st.dev).wrote

theorem writesBootOnly {st : IdmeState} {op : IdmeOp} (htold : ToldSwitches st op) :
    WritesBootOnly st op := by
  intro hboot
  cases hbody : op.body with
  | none =>
      have hsame : (op.exec st).2 = st := by
        cases op with
        | read part pbuf =>
            cases hboot
            cases hbody
        | write part pbuf =>
            cases hboot
            cases hbody
        | getVar name buflen =>
            simp only [IdmeOp.exec, idmeGetVar, Option.map_eq_none_iff.mp hbody]
        | updateVar name value =>
            simp only [IdmeOp.exec, idmeUpdateVar, Option.map_eq_none_iff.mp hbody]
        | writeMagicSize => cases hbody
      rw [hsame]
      exact ⟨[], ⟨rfl, (List.append_nil _).symm⟩, by simp⟩
  | some body =>
      have hto := swPart_wrote .boot st
      rcases exec_of_body hbody st with ⟨st₁, hsw, -, hdev⟩ | ⟨st₁, hsw, hdev, -⟩
      · rw [hsw] at hto
        rw [hdev]
        exact ⟨[], hto, by simp⟩
      · rw [hsw] at hto
        obtain ⟨-, ws, hwrote, hpart⟩ := body_stays hbody st₁
        have hback := swPart_wrote .user (body st₁)
        have haccess : st₁.dev.access = .boot := by
          have haccepted : (st.report 0).accepted = true := congrArg Prod.fst hsw
          have hst : (swPart .boot st).2 = st₁ := congrArg Prod.snd hsw
          unfold ToldSwitches at htold
          rw [switches_of_true hbody hsw] at htold
          rw [← hst, swPart_access,
            if_pos ((accepted_iff_of_told (htold _ List.mem_cons_self)).mp haccepted)]
        rw [hdev]
        refine ⟨[] ++ ws ++ [], (hto.trans hwrote).trans hback, ?_⟩
        intro w hw
        rw [List.nil_append, List.append_nil] at hw
        exact (hpart w hw).trans haccess

/-! ## Runs -/

/-- In every run that starts with the user partition selected, an operation whose
switches tell, and that succeeds or fails while they succeed, leaves the user partition
selected if it sends switch commands and the selection as it was if not, and on the boot
area writes the boot partition only.  As long as the switches tell and no switch back
fails, the user partition is selected after every operation. -/
theorem idmeRun_selectsUserAgain {st : IdmeState} (h : st.dev.access = .user)
    (ops : List IdmeOp) :
    StepsMeet idmeStep (fun st op =>
        ToldSwitches st op → SelectsUserAgain st op ∧ WritesBootOnly st op) st ops ∧
      (StepsMeet idmeStep (fun st op => ToldSwitches st op ∧ ¬ LeavesBoot st op) st ops →
        StepsMeet idmeStep (fun st op => (op.exec st).2.dev.access = .user) st ops) := by
  refine ⟨stepsMeet_of_forall
    (fun st op htold => ⟨selectsUserAgain htold, writesBootOnly htold⟩)
    st ops, fun hmeet => ?_⟩
  refine hmeet.imp_of_invariant (P := fun st => st.dev.access = .user) ?_ h
  rintro st op ⟨htold, hback⟩ haccess
  have hafter : (op.exec st).2.dev.access = .user := by
    have hswitches : ¬ (op.switches st).map Report.accepted = [true, false] := hback
    rw [exec_access htold, if_neg hswitches, haccess, ite_self]
  exact ⟨hafter, hafter⟩

/-- A device whose third command is refused. -/
def thirdFails : IdmeState where
  dev := ⟨⟨fun _ => 0, fun _ => 0⟩, .user, [.done, .done, .refused 0], []⟩
  gblockBuff := fun _ => 0
  high := 0

theorem idmeRun_selectsUserAgain_thirdFails :
    StepsMeet idmeStep (fun st op =>
        ToldSwitches st op → SelectsUserAgain st op ∧ WritesBootOnly st op) thirdFails
        [.getVar (text "bootmode") 17] ∧
      (StepsMeet idmeStep (fun st op => ToldSwitches st op ∧ ¬ LeavesBoot st op) thirdFails
          [.getVar (text "bootmode") 17] →
        StepsMeet idmeStep (fun st op => (op.exec st).2.dev.access = .user) thirdFails
          [.getVar (text "bootmode") 17]) :=
  idmeRun_selectsUserAgain rfl [.getVar (text "bootmode") 17]

/-- Behind a switch back that fails, writing the user area succeeds with the boot
partition selected. -/
theorem thirdFails_not_selectsUser :
    ¬ ∀ (st : IdmeState) (ops : List IdmeOp), st.dev.access = .user →
      StepsMeet idmeStep (fun st op => SelectsUser st op ∧ WritesBootOnly st op) st ops := by
  intro h
  obtain ⟨-, ⟨hselects, -⟩, -⟩ :=
    h thirdFails [.getVar (text "bootmode") 17, .write .user fun _ => 0] rfl
  have hreports : (idmeStep thirdFails (.getVar (text "bootmode") 17)).1.dev.reports = [] := rfl
  have hsuccess : ((IdmeOp.write .user fun _ => 0).exec
      (idmeStep thirdFails (.getVar (text "bootmode") 17)).1).1 = true :=
    (idmeWrite_of_reports (fun _ => 0) .user hreports).1
  have haccess := hselects (Or.inl hsuccess)
  rw [exec_access_of_no_body rfl] at haccess
  cases haccess

end TateFirmware.Idme
