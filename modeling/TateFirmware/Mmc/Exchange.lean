import TateFirmware.Mmc.Host

/-!
# The exchange with the controller

What `omap_mmc_write_sect` returns, and which errors the controller reports
meanwhile, depends on the number of sectors and on the controller's reports
only: not on the data, the card or the sector.  An exchange is that part of a
write.  It shows how the errors of the controller reach the return value, and
which of them do not.
-/

namespace TateFirmware.Mmc

open Support

/-- The reports the controller has for the coming operations. -/
structure Reports where
  commands : List (List ℕ)
  transfers : List (ℕ → List ℕ)

def Host.reports (h : Host) : Reports := ⟨h.commandReports, h.transferReports⟩

/-- The result of an exchange: the value returned, the errors reported, and
the reports left. -/
structure Exchange where
  ret : ℕ
  errors : List ControllerError
  reports : Reports

/-- An exchange behind earlier errors. -/
def Exchange.after (errors : List ControllerError) (e : Exchange) : Exchange :=
  { e with errors := errors ++ e.errors }

section After

variable (errors : List ControllerError) (e : Exchange)

@[simp] theorem Exchange.after_ret : (e.after errors).ret = e.ret := rfl

@[simp] theorem Exchange.after_errors :
    (e.after errors).errors = errors ++ e.errors := rfl

@[simp] theorem Exchange.after_reports :
    (e.after errors).reports = e.reports := rfl

end After

/-- One command. -/
def sendExchange (r : Reports) : Exchange :=
  let poll := sendCmdPoll (r.commands.headD [])
  ⟨poll.1, (poll.2.map ControllerError.command).toList,
    { r with commands := r.commands.tail }⟩

/-- The commands that open a burst. -/
def openExchange (blkCnt : ℕ) (r : Reports) : Exchange :=
  if 1 < blkCnt then
    let count := sendExchange r
    if count.ret ≠ 1 then count
    else
      (sendExchange count.reports).after count.errors
  else sendExchange r

/-- How the exchange of one burst ends: with the whole write, or with some
blocks written. -/
inductive BurstExchange where
  | ret (e : Exchange)
  | wrote (count : ℕ) (errors : List ControllerError) (reports : Reports)

/-- One burst. -/
def burstExchange (numSec : ℕ) (r : Reports) : BurstExchange :=
  let blkCnt := blkCntCurrentTns numSec
  let opened := openExchange blkCnt r
  if opened.ret ≠ 1 then .ret opened
  else
    let poll := writeDataPoll blkCnt
      ((opened.reports.transfers.headD fun _ => []) blkCnt) 0
    let left := { opened.reports with transfers := opened.reports.transfers.tail }
    match poll.1 with
    | some stat =>
        .ret ⟨1, opened.errors ++ [ControllerError.transfer stat], left⟩
    | none => .wrote poll.2 opened.errors left

/-- A driver whose host has the result of an exchange. -/
def Follows (h : Host) (ret : ℕ) (h' : Host) (e : Exchange) : Prop :=
  ret = e.ret ∧ h'.errors = h.errors ++ e.errors ∧ h'.reports = e.reports

theorem mmcSendCmd_follows (cmd : Command) (argument : ℕ) (h : Host) :
    Follows h (mmcSendCmd cmd argument h).1 (mmcSendCmd cmd argument h).2
      (sendExchange h.reports) := by
  cases cmd <;> exact ⟨rfl, rfl, rfl⟩

theorem openBurst_follows (blkCnt argument : ℕ) (h : Host) :
    Follows h (openBurst blkCnt argument h).1 (openBurst blkCnt argument h).2
      (openExchange blkCnt h.reports) := by
  unfold openBurst openExchange
  by_cases hmulti : 1 < blkCnt
  · obtain ⟨hret, herrors, hreports⟩ := mmcSendCmd_follows .cmd23 blkCnt h
    simp only [if_pos hmulti, hret]
    by_cases hok : (sendExchange h.reports).ret ≠ 1
    · simp only [if_pos hok]
      exact ⟨rfl, herrors, hreports⟩
    · simp only [if_neg hok, Exchange.after]
      obtain ⟨hret', herrors', hreports'⟩ := mmcSendCmd_follows .cmd25 argument
        { (mmcSendCmd .cmd23 blkCnt h).2 with blk := blkCnt }
      have hset : ({ (mmcSendCmd .cmd23 blkCnt h).2 with
          blk := blkCnt } : Host).reports = (sendExchange h.reports).reports :=
        hreports
      rw [hset] at hret' herrors' hreports'
      refine ⟨hret', ?_, hreports'⟩
      rw [herrors']
      simp only [herrors, List.append_assoc]
  · simp only [if_neg hmulti]
    exact mmcSendCmd_follows .cmd24 argument h

/-- The same for the two ways a burst can end. -/
def BurstFollows (h : Host) : Burst → BurstExchange → Prop
  | .ret err h', .ret e => Follows h err h' e
  | .wrote count h', .wrote count' errors reports =>
      count = count' ∧ h'.errors = h.errors ++ errors ∧ h'.reports = reports
  | _, _ => False

theorem writeBurst_follows (slot : Slot) (inputBuf : Memory UInt8)
    (argument : ℕ) {numSec : ℕ} (hne : numSec ≠ 0) (h : Host) :
    BurstFollows h (writeBurst slot inputBuf argument numSec h)
      (burstExchange numSec h.reports) := by
  obtain ⟨hret, herrors, hreports⟩ :=
    openBurst_follows (blkCntCurrentTns numSec) argument h
  have haccepted := openBurst_accepted argument h
    (blkCntCurrentTns_pos hne)
  unfold writeBurst burstExchange
  dsimp only
  generalize openBurst (blkCntCurrentTns numSec) argument h = opened at *
  obtain ⟨err, h'⟩ := opened
  generalize openExchange (blkCntCurrentTns numSec) h.reports = e at *
  simp only at hret herrors hreports haccepted
  simp only [← hret]
  by_cases hok : err ≠ 1
  · simp only [if_pos hok]
    exact ⟨hret, herrors, hreports⟩
  · simp only [if_neg hok]
    obtain ⟨hblk, -⟩ := haccepted (not_not.mp hok)
    simp only [← hreports, mmcWriteData, transfer, hblk, Host.reports]
    cases (writeDataPoll (blkCntCurrentTns numSec)
      ((h'.transferReports.headD fun _ => []) (blkCntCurrentTns numSec))
      0).1 with
    | some stat =>
        refine ⟨rfl, ?_, rfl⟩
        simp [herrors, List.append_assoc]
    | none =>
        refine ⟨?_, ?_, rfl⟩
        · simp
        · simp [herrors]

theorem openExchange_transfers (blkCnt : ℕ) (r : Reports) :
    (openExchange blkCnt r).reports.transfers = r.transfers := by
  unfold openExchange
  split
  · dsimp only
    split <;> rfl
  · rfl

/-- A burst that goes on uses up a report of the controller, or has written
all its blocks. -/
theorem burstExchange_progress {numSec count : ℕ} {r r' : Reports}
    {errors : List ControllerError}
    (hb : burstExchange numSec r = .wrote count errors r') :
    r'.transfers = r.transfers.tail ∧
      (r.transfers = [] → count = blkCntCurrentTns numSec) := by
  have htransfers := openExchange_transfers (blkCntCurrentTns numSec) r
  unfold burstExchange at hb
  dsimp only at hb
  generalize openExchange (blkCntCurrentTns numSec) r = opened at *
  split at hb
  · simp at hb
  · split at hb
    · simp at hb
    · obtain ⟨hcount, -, rfl⟩ := BurstExchange.wrote.inj hb
      refine ⟨by simp [htransfers], fun hnil => ?_⟩
      rw [← hcount, htransfers, hnil]
      simp [writeDataPoll]

/-- What the write loop still has in front of it: controller reports first,
then sectors. -/
def Reports.budget (r : Reports) (numSec : ℕ) : ℕ :=
  r.transfers.length * 2 ^ 32 + numSec

theorem burstExchange_budget {numSec count : ℕ} {r r' : Reports}
    {errors : List ControllerError} (hne : numSec ≠ 0)
    (hb : burstExchange numSec r = .wrote count errors r') :
    r'.budget (numSecLeft numSec count) < r.budget numSec := by
  obtain ⟨htail, hfull⟩ := burstExchange_progress hb
  have hlt := numSecLeft_lt numSec count
  unfold Reports.budget
  rw [htail, List.length_tail]
  cases hreports : r.transfers with
  | nil =>
      have hcount := hfull hreports
      have hpos := blkCntCurrentTns_pos hne
      have hle := blkCntCurrentTns_le numSec
      simp only [List.length_nil]
      unfold numSecLeft at hlt ⊢
      omega
  | cons report rest =>
      simp only [List.length_cons]
      omega

theorem writeBurst_budget {slot : Slot} {inputBuf : Memory UInt8}
    {argument numSec count : ℕ} {h h' : Host} (hne : numSec ≠ 0)
    (hb : writeBurst slot inputBuf argument numSec h = .wrote count h') :
    h'.reports.budget (numSecLeft numSec count) < h.reports.budget numSec := by
  have hfollows := writeBurst_follows slot inputBuf argument hne h
  rw [hb] at hfollows
  cases hexchange : burstExchange numSec h.reports with
  | ret e =>
      rw [hexchange] at hfollows
      exact hfollows.elim
  | wrote count' errors reports =>
      rw [hexchange] at hfollows
      obtain ⟨rfl, -, rfl⟩ := hfollows
      exact burstExchange_budget hne hexchange

/-- The exchange of a whole write loop. -/
def loopExchange (numSec : ℕ) (r : Reports) : Exchange :=
  if _hne : numSec = 0 then ⟨1, [], r⟩
  else
    match _hb : burstExchange numSec r with
    | .ret e => e
    | .wrote count errors r' =>
        (loopExchange (numSecLeft numSec count) r').after errors
termination_by r.budget numSec
decreasing_by exact burstExchange_budget _hne _hb

@[simp] theorem loopExchange_zero (r : Reports) :
    loopExchange 0 r = ⟨1, [], r⟩ := by
  rw [loopExchange, dif_pos rfl]

theorem loopExchange_of_ret {numSec : ℕ} {r : Reports} {e : Exchange}
    (hne : numSec ≠ 0) (hb : burstExchange numSec r = .ret e) :
    loopExchange numSec r = e := by
  rw [loopExchange, dif_neg hne, hb]

theorem loopExchange_of_wrote {numSec count : ℕ} {r r' : Reports}
    {errors : List ControllerError} (hne : numSec ≠ 0)
    (hb : burstExchange numSec r = .wrote count errors r') :
    loopExchange numSec r =
      (loopExchange (numSecLeft numSec count) r').after errors := by
  rw [loopExchange, dif_neg hne, hb]

theorem burstExchange_transfers {numSec : ℕ} {r : Reports} {e : Exchange}
    (hb : burstExchange numSec r = .ret e) :
    e.reports.transfers <:+ r.transfers := by
  have htransfers := openExchange_transfers (blkCntCurrentTns numSec) r
  unfold burstExchange at hb
  dsimp only at hb
  generalize openExchange (blkCntCurrentTns numSec) r = opened at *
  split at hb
  · obtain rfl := BurstExchange.ret.inj hb
    exact htransfers ▸ List.suffix_rfl
  · split at hb
    · obtain rfl := BurstExchange.ret.inj hb
      rw [← htransfers]
      exact List.tail_suffix _
    · simp at hb

/-- An exchange uses up reports from the front. -/
theorem loopExchange_transfers (numSec : ℕ) (r : Reports) :
    (loopExchange numSec r).reports.transfers <:+ r.transfers := by
  induction numSec, r using loopExchange.induct with
  | case1 r => simp
  | case2 numSec r hne e hb =>
      rw [loopExchange_of_ret hne hb]
      exact burstExchange_transfers hb
  | case3 numSec r hne count errors r' hb ih =>
      rw [loopExchange_of_wrote hne hb, Exchange.after_reports]
      have htail := (burstExchange_progress hb).1
      rw [htail] at ih
      exact ih.trans (List.tail_suffix _)

/-! ## How an exchange returns -/

/-- The error of a command with status byte `1`, which the driver takes for
success. -/
def TakenForSuccess (e : ControllerError) : Prop :=
  ∃ stat, e = .command stat ∧ stat % 256 = 1

/-- All errors were taken for success. -/
def Exchange.Accepted (e : Exchange) : Prop :=
  e.ret = 1 ∧ ∀ x ∈ e.errors, TakenForSuccess x

/-- The last error is that of a refused command, whose status byte is
returned. -/
def Exchange.Refused (e : Exchange) : Prop :=
  ∃ pre stat, e.errors = pre ++ [.command stat] ∧ stat % 256 ≠ 1 ∧
    e.ret = stat % 256

/-- The last error is that of a transfer, for which `1` is returned. -/
def Exchange.Aborted (e : Exchange) : Prop :=
  ∃ pre stat, e.errors = pre ++ [.transfer stat] ∧ e.ret = 1

theorem Exchange.Accepted.after {errors : List ControllerError} {e : Exchange}
    (herrors : ∀ x ∈ errors, TakenForSuccess x) (he : e.Accepted) :
    (e.after errors).Accepted := by
  refine ⟨by simpa using he.1, fun x hx => ?_⟩
  rw [Exchange.after_errors] at hx
  rcases List.mem_append.mp hx with hx | hx
  · exact herrors x hx
  · exact he.2 x hx

theorem Exchange.Refused.after (errors : List ControllerError) {e : Exchange}
    (he : e.Refused) : (e.after errors).Refused := by
  obtain ⟨pre, stat, heq, hne, hret⟩ := he
  exact ⟨errors ++ pre, stat, by simp [heq], hne, by simpa using hret⟩

theorem Exchange.Aborted.after (errors : List ControllerError) {e : Exchange}
    (he : e.Aborted) : (e.after errors).Aborted := by
  obtain ⟨pre, stat, heq, hret⟩ := he
  exact ⟨errors ++ pre, stat, by simp [heq], by simpa using hret⟩

theorem sendCmdPoll_ret (report : List ℕ) :
    (sendCmdPoll report).2 = none ∧ (sendCmdPoll report).1 = 1 ∨
      ∃ stat, (sendCmdPoll report).2 = some stat ∧
        (sendCmdPoll report).1 = stat % 256 := by
  induction report with
  | nil => exact Or.inl ⟨rfl, rfl⟩
  | cons stat rest ih =>
      unfold sendCmdPoll
      split
      · exact ih
      · split
        · exact Or.inr ⟨stat, rfl, rfl⟩
        · split
          · exact Or.inl ⟨rfl, rfl⟩
          · exact ih

theorem sendExchange_cases (r : Reports) :
    (sendExchange r).Accepted ∨ (sendExchange r).Refused := by
  rcases sendCmdPoll_ret (r.commands.headD []) with ⟨hnone, hret⟩ |
    ⟨stat, hsome, hret⟩
  · refine Or.inl ⟨hret, ?_⟩
    simp only [sendExchange, hnone]
    simp
  · have herrors : (sendExchange r).errors = [.command stat] := by
      simp only [sendExchange, hsome]
      rfl
    by_cases hone : stat % 256 = 1
    · refine Or.inl ⟨hret.trans hone, fun x hx => ?_⟩
      rw [herrors, List.mem_singleton] at hx
      exact ⟨stat, hx, hone⟩
    · exact Or.inr ⟨[], stat, herrors, hone, hret⟩

theorem openExchange_cases (blkCnt : ℕ) (r : Reports) :
    (openExchange blkCnt r).Accepted ∨ (openExchange blkCnt r).Refused := by
  unfold openExchange
  split
  · dsimp only
    rcases sendExchange_cases r with hok | hrefused
    · rw [if_neg (not_not.mpr hok.1)]
      rcases sendExchange_cases (sendExchange r).reports with hok' | hrefused'
      · exact Or.inl (hok'.after hok.2)
      · exact Or.inr (hrefused'.after _)
    · obtain ⟨pre, stat, herrors, hne, hret⟩ := hrefused
      rw [if_pos (hret ▸ hne)]
      exact Or.inr ⟨pre, stat, herrors, hne, hret⟩
  · exact sendExchange_cases r

theorem Exchange.Refused.ret_ne {e : Exchange} (he : e.Refused) :
    e.ret ≠ 1 := by
  obtain ⟨pre, stat, -, hne, hret⟩ := he
  exact hret ▸ hne

/-- A burst ends the write with an error, or goes on behind errors that were
taken for success. -/
theorem burstExchange_cases (numSec : ℕ) (r : Reports) :
    (∃ e, burstExchange numSec r = .ret e ∧ (e.Refused ∨ e.Aborted)) ∨
      ∃ count errors r', burstExchange numSec r = .wrote count errors r' ∧
        ∀ x ∈ errors, TakenForSuccess x := by
  have hopened := openExchange_cases (blkCntCurrentTns numSec) r
  unfold burstExchange
  dsimp only
  generalize openExchange (blkCntCurrentTns numSec) r = opened at *
  rcases hopened with hok | hrefused
  · rw [if_neg (not_not.mpr hok.1)]
    cases (writeDataPoll (blkCntCurrentTns numSec)
      ((opened.reports.transfers.headD fun _ => []) (blkCntCurrentTns numSec))
      0).1 with
    | some stat => exact Or.inl ⟨_, rfl, Or.inr ⟨opened.errors, stat, rfl, rfl⟩⟩
    | none => exact Or.inr ⟨_, _, _, rfl, hok.2⟩
  · rw [if_pos hrefused.ret_ne]
    exact Or.inl ⟨opened, rfl, Or.inl hrefused⟩

theorem loopExchange_cases (numSec : ℕ) (r : Reports) :
    (loopExchange numSec r).Accepted ∨ (loopExchange numSec r).Refused ∨
      (loopExchange numSec r).Aborted := by
  induction numSec, r using loopExchange.induct with
  | case1 r => exact Or.inl ⟨by simp, by simp⟩
  | case2 numSec r hne e hb =>
      rw [loopExchange_of_ret hne hb]
      rcases burstExchange_cases numSec r with ⟨e', he', h⟩ | ⟨_, _, _, h, _⟩
      · obtain rfl := BurstExchange.ret.inj (hb.symm.trans he')
        exact Or.inr h
      · rw [hb] at h
        simp at h
  | case3 numSec r hne count errors r' hb ih =>
      rw [loopExchange_of_wrote hne hb]
      rcases burstExchange_cases numSec r with ⟨_, h, _⟩ | ⟨c, es, r'', h, htaken⟩
      · rw [hb] at h
        simp at h
      · obtain ⟨rfl, rfl, rfl⟩ := BurstExchange.wrote.inj (hb.symm.trans h)
        rcases ih with hok | hrefused | haborted
        · exact Or.inl (hok.after htaken)
        · exact Or.inr (Or.inl (hrefused.after _))
        · exact Or.inr (Or.inr (haborted.after _))

/-- The write returns `0`, the only value its caller takes for a failure, in
one case: its last error is that of a command with status byte `0`. -/
theorem loopExchange_ret_eq_zero_iff (numSec : ℕ) (r : Reports) :
    (loopExchange numSec r).ret = 0 ↔
      ∃ pre stat, (loopExchange numSec r).errors = pre ++ [.command stat] ∧
        stat % 256 = 0 := by
  constructor
  · intro hzero
    rcases loopExchange_cases numSec r with hok | hrefused | haborted
    · rw [hok.1] at hzero
      simp at hzero
    · obtain ⟨pre, stat, herrors, -, hret⟩ := hrefused
      exact ⟨pre, stat, herrors, hret ▸ hzero⟩
    · obtain ⟨pre, stat, -, hret⟩ := haborted
      rw [hret] at hzero
      simp at hzero
  · rintro ⟨pre, stat, herrors, hstat⟩
    have hlast : (loopExchange numSec r).errors.getLast? =
        some (.command stat) := by
      rw [herrors, List.getLast?_concat]
    rcases loopExchange_cases numSec r with hok | hrefused | haborted
    · have hmem := List.mem_of_getLast? hlast
      obtain ⟨stat', heq, hone⟩ := hok.2 _ hmem
      obtain rfl := ControllerError.command.inj heq
      omega
    · obtain ⟨pre', stat', herrors', -, hret⟩ := hrefused
      rw [herrors', List.getLast?_concat] at hlast
      obtain rfl := ControllerError.command.inj (Option.some.inj hlast)
      exact hret.trans hstat
    · obtain ⟨pre', stat', herrors', -⟩ := haborted
      rw [herrors', List.getLast?_concat] at hlast
      simp at hlast

end TateFirmware.Mmc
